import Mathlib.Algebra.Ring.Nat
import Simplicity.BitString.Lemmas
import Simplicity.Stream.Decoder

/-!
# Decoders as recognizers

A decoder that succeeds has consumed some bits, and which bits these are is determined by what it
has read. `Decoder.Recognizes` says so in both directions: the decoder gives a value exactly when
the bits ahead start with a writing of that value, and it then stands right behind the writing.
Sequences of decoders recognize sequences of writings, so the statement for a large decoder follows
the steps of its definition, and neither positions nor packed bytes are mentioned again.
-/

namespace Simplicity

namespace BitString

theorem lowBits_mod_two_pow (value count : Nat) :
    lowBits (value % 2 ^ count) count = lowBits value count := by
  suffices ∀ wide, count ≤ wide → lowBits (value % 2 ^ wide) count = lowBits value count from
    this count (Nat.le_refl count)
  intro wide within
  induction count with
  | zero => rfl
  | succ count ih =>
      have inside : count < wide := within
      simp [lowBits, Nat.testBit_mod_two_pow, inside, ih (by omega)]

theorem lowBits_two_pow_add (value count : Nat) :
    lowBits (2 ^ count + value) count = lowBits value count := by
  rw [← lowBits_mod_two_pow, Nat.add_mod_left, lowBits_mod_two_pow]

theorem lowBits_add_of_lt {value count : Nat} (small : value < 2 ^ count) (extra : Nat) :
    lowBits value (count + extra) = List.replicate extra false ++ lowBits value count := by
  induction extra with
  | zero => rfl
  | succ extra ih =>
      have clear : value.testBit (count + extra) = false :=
        Nat.testBit_lt_two_pow (Nat.lt_of_lt_of_le small
          (Nat.pow_le_pow_right (by decide) (Nat.le_add_right _ _)))
      rw [← Nat.add_assoc, lowBits, clear, ih, List.replicate_succ]
      rfl

/-- A number is determined by its low bits if it has no others. -/
theorem eq_of_lowBits_eq {left right count : Nat} (smallLeft : left < 2 ^ count)
    (smallRight : right < 2 ^ count) (same : lowBits left count = lowBits right count) :
    left = right := by
  have agree : ∀ bits, lowBits left bits = lowBits right bits →
      ∀ place < bits, left.testBit place = right.testBit place := by
    intro bits
    induction bits with
    | zero =>
        intro _ place impossible
        omega
    | succ bits ih =>
        intro equal place inside
        rcases List.cons.inj equal with ⟨top, rest⟩
        rcases Nat.lt_succ_iff_lt_or_eq.mp inside with lower | rfl
        · exact ih rest place lower
        · exact top
  refine Nat.eq_of_testBit_eq fun place => ?_
  rcases Nat.lt_or_ge place count with inside | outside
  · exact agree count same place inside
  · have wide : 2 ^ count ≤ 2 ^ place := Nat.pow_le_pow_right (by decide) outside
    rw [Nat.testBit_lt_two_pow (by omega), Nat.testBit_lt_two_pow (by omega)]

theorem lowBits_two_mul_add (value : Nat) (bit : Bool) (count : Nat) :
    lowBits (2 * value + bit.toNat) (count + 1) = lowBits value count ++ [bit] := by
  induction count with
  | zero => cases bit <;> simp [lowBits]
  | succ count ih =>
      have high : (2 * value + bit.toNat).testBit (count + 1) = value.testBit count := by
        rw [Nat.testBit_succ]
        congr 1
        cases bit <;> simp; omega
      rw [lowBits, high, ih]
      rfl

theorem toList_drop_eq_map (bits : BitString) {start count : Nat}
    (within : start + count ≤ bits.length) :
    (bits.toList.drop start).take count =
      (List.range count).map fun offset => bitAt bits.bytes (start + offset) := by
  apply List.ext_getElem
  · simp
    omega
  · intro index _ _
    simp [toList]

theorem natAt_lt (bits : BitString) (start count : Nat) : bits.natAt start count < 2 ^ count := by
  induction count with
  | zero => simp [natAt]
  | succ count ih =>
      have small := Bool.toNat_lt (bitAt bits.bytes (start + count))
      rw [natAt, Nat.pow_succ]
      omega

/-- A number that is read off a string has the bits of the string. -/
theorem lowBits_natAt (bits : BitString) (start count : Nat) :
    lowBits (bits.natAt start count) count =
      (List.range count).map fun offset => bitAt bits.bytes (start + offset) := by
  induction count with
  | zero => rfl
  | succ count ih =>
      rw [natAt, lowBits_two_mul_add, ih, List.range_succ, List.map_append]
      rfl

theorem lowBits_eq_map_range (value count : Nat) :
    lowBits value count = (List.range count).map fun offset => value.testBit (count - 1 - offset) := by
  induction count with
  | zero => rfl
  | succ count ih =>
      rw [lowBits, ih, List.range_succ_eq_map]
      simp only [List.map_cons, List.map_map]
      congr 1
      apply List.map_congr_left
      intro offset member
      have inside := List.mem_range.mp member
      simp only [Function.comp_apply]
      congr 1
      omega

theorem testBit_byteAt (bits : BitString) (position : Nat) (inside : position + 8 ≤ bits.length)
    {place : Nat} (small : place < 8) :
    (bits.byteAt position inside).toNat.testBit place =
      bitAt bits.bytes (position + (7 - place)) := by
  have size_eq := bits.packed.size_eq
  have first : position / 8 < bits.bytes.size := by omega
  simp only [byteAt]
  split
  case isTrue aligned =>
    rw [bitAt, dif_pos (by omega)]
    have sameByte : (position + (7 - place)) / 8 = position / 8 := by omega
    simp only [sameByte]
    congr 1
    omega
  case isFalse unaligned =>
    have second : position / 8 + 1 < bits.bytes.size := by omega
    have amount : (UInt8.ofNat (position % 8)).toNat = position % 8 := by
      rw [UInt8.toNat_ofNat_of_lt']
      simp only [UInt8.size]
      omega
    have amount' : (UInt8.ofNat (8 - position % 8)).toNat = 8 - position % 8 := by
      rw [UInt8.toNat_ofNat_of_lt']
      simp only [UInt8.size]
      omega
    rw [UInt8.toNat_or, Nat.testBit_or, UInt8.toNat_shiftLeft, UInt8.toNat_shiftRight, amount,
      amount', Nat.testBit_mod_two_pow, Nat.testBit_shiftLeft, Nat.testBit_shiftRight,
      Nat.mod_eq_of_lt (by omega : position % 8 < 8),
      Nat.mod_eq_of_lt (by omega : 8 - position % 8 < 8)]
    -- The places above the offset come from the first byte, the others from the second.
    rcases Nat.lt_or_ge place (position % 8) with low | high
    · have nextByte : (position + (7 - place)) / 8 = position / 8 + 1 := by omega
      rw [bitAt, dif_pos (by omega)]
      simp only [nextByte, decide_eq_false (by omega : ¬ position % 8 ≤ place), Bool.false_and,
        Bool.and_false, Bool.false_or]
      congr 1
      omega
    · have sameByte : (position + (7 - place)) / 8 = position / 8 := by omega
      have beyond : (bits.bytes[position / 8 + 1]).toNat.testBit (8 - position % 8 + place) =
          false := by
        apply Nat.testBit_lt_two_pow
        apply Nat.lt_of_lt_of_le (UInt8.toNat_lt _)
        exact Nat.pow_le_pow_right (by decide) (by omega)
      rw [bitAt, dif_pos (by omega), beyond]
      simp only [sameByte, decide_eq_true small, decide_eq_true high, Bool.true_and, Bool.or_false]
      congr 1
      omega

theorem lowBits_byteAt (bits : BitString) (position : Nat) (inside : position + 8 ≤ bits.length) :
    lowBits (bits.byteAt position inside).toNat 8 =
      (List.range 8).map fun offset => bitAt bits.bytes (position + offset) := by
  rw [lowBits_eq_map_range]
  apply List.map_congr_left
  intro offset member
  have small := List.mem_range.mp member
  rw [testBit_byteAt _ _ _ (by omega)]
  congr 1
  omega

/-- The bits of bytes, one byte after another. -/
theorem length_flatMap_lowBits (bytes : List UInt8) :
    (bytes.flatMap fun byte => lowBits byte.toNat 8).length = 8 * bytes.length := by
  induction bytes with
  | nil => rfl
  | cons byte rest ih =>
      rw [List.flatMap_cons, List.length_append, ih, length_lowBits, List.length_cons]
      omega

theorem eq_of_flatMap_lowBits_eq {left right : List UInt8}
    (same : (left.flatMap fun byte => lowBits byte.toNat 8) =
      right.flatMap fun byte => lowBits byte.toNat 8) : left = right := by
  induction left generalizing right with
  | nil =>
      cases right with
      | nil => rfl
      | cons byte rest => simp [lowBits] at same
  | cons byte rest ih =>
      cases right with
      | nil => simp [lowBits] at same
      | cons byte' rest' =>
          rw [List.flatMap_cons, List.flatMap_cons] at same
          rcases List.append_inj same (by simp) with ⟨head, tail⟩
          have bytes_eq := eq_of_lowBits_eq byte.toNat_lt byte'.toNat_lt head
          rw [UInt8.toNat_inj.mp bytes_eq, ih tail]

/-- The bytes from a position on are made of the bits from that position on. -/
theorem flatMap_byteAt (bits : BitString) {count position : Nat}
    (enough : position + 8 * count ≤ bits.length) :
    ((List.ofFn fun index : Fin count =>
        bits.byteAt (position + 8 * index.val) (by omega)).flatMap
      fun byte => lowBits byte.toNat 8) =
      (List.range (8 * count)).map fun offset => bitAt bits.bytes (position + offset) := by
  induction count generalizing position with
  | zero => rfl
  | succ count ih =>
      have step : ∀ index : Fin count,
          position + 8 * index.succ.val = position + 8 + 8 * index.val := by
        intro index
        rw [Fin.val_succ]
        omega
      have later := @ih (position + 8) (by omega)
      rw [List.ofFn_succ, List.flatMap_cons, lowBits_byteAt]
      simp only [step, later]
      rw [Nat.mul_succ, Nat.add_comm (8 * count) 8, List.range_add, List.map_append, List.map_map]
      congr 1
      apply List.map_congr_left
      intro offset _
      simp only [Function.comp_apply, Nat.add_assoc]

theorem toList_ofBytes_bytes (bits : BitString) :
    (ofBytes bits.bytes).toList =
      bits.toList ++ List.replicate (8 * bits.bytes.size - bits.length) false := by
  have size_eq := bits.packed.size_eq
  obtain ⟨extra, split⟩ : ∃ extra, 8 * bits.bytes.size = bits.length + extra :=
    ⟨8 * bits.bytes.size - bits.length, by omega⟩
  change (List.range (8 * bits.bytes.size)).map (bitAt bits.bytes) = _
  rw [toList, split, Nat.add_sub_cancel_left, List.range_add, List.map_append, List.map_map]
  congr 1
  apply List.ext_getElem
  · simp
  · intro index _ _
    simp [bits.packed.padding]

/-- Bytes start with the bits of a string if they hold them at their first positions. -/
theorem toList_prefix_ofBytes {bits : BitString} {bytes : ByteArray}
    (fits : bits.length ≤ 8 * bytes.size)
    (agree : ∀ index < bits.length, bitAt bytes index = bitAt bits.bytes index) :
    bits.toList <+: (ofBytes bytes).toList := by
  obtain ⟨extra, split⟩ := Nat.exists_eq_add_of_le fits
  have front : (List.range bits.length).map (bitAt bytes) = bits.toList := by
    apply List.map_congr_left
    intro index member
    exact agree index (List.mem_range.mp member)
  change _ <+: (List.range (8 * bytes.size)).map (bitAt bytes)
  rw [split, List.range_add, List.map_append, front]
  exact List.prefix_append _ _

/-- Bytes hold some bits and less than a byte of zeros exactly when they are the bytes of those
bits. -/
theorem padded_iff (bytes : ByteArray) (bits : BitString) :
    (∃ padding : List Bool, (padding.length < 8 ∧ ∀ bit ∈ padding, bit = false) ∧
        (ofBytes bytes).toList = bits.toList ++ padding) ↔ bytes = bits.bytes := by
  have size_eq := bits.packed.size_eq
  constructor
  · rintro ⟨padding, ⟨short, clear⟩, split⟩
    have lengths := congrArg List.length split
    rw [length_toList, List.length_append, length_toList] at lengths
    change 8 * bytes.size = _ at lengths
    have zeros : padding = List.replicate (8 * bits.bytes.size - bits.length) false :=
      List.eq_replicate_iff.mpr ⟨by omega, clear⟩
    rw [zeros, ← toList_ofBytes_bytes] at split
    exact congrArg BitString.bytes (eq_of_toList_eq split)
  · rintro rfl
    refine ⟨_, ⟨?_, ?_⟩, toList_ofBytes_bytes bits⟩
    · rw [List.length_replicate]
      omega
    · intro bit member
      exact List.eq_of_mem_replicate member

end BitString

namespace Cursor

/-- The bits that are not consumed yet. -/
def rest (cursor : Cursor) : List Bool :=
  cursor.source.toList.drop cursor.position

@[simp]
theorem length_rest (cursor : Cursor) : cursor.rest.length = cursor.remaining := by
  simp [rest, remaining]

@[simp]
theorem advance_zero (cursor : Cursor) : cursor.advance 0 = cursor :=
  rfl

@[simp]
theorem advance_advance (cursor : Cursor) (first second : Nat) :
    (cursor.advance first).advance second = cursor.advance (first + second) := by
  simp [advance, Nat.add_assoc]

@[simp]
theorem rest_advance (cursor : Cursor) (count : Nat) :
    (cursor.advance count).rest = cursor.rest.drop count := by
  simp [rest, advance, List.drop_drop]

theorem rest_ofBytes (bytes : ByteArray) :
    (ofBytes bytes).rest = (BitString.ofBytes bytes).toList :=
  rfl

theorem rest_eq_map (cursor : Cursor) :
    cursor.rest = (List.range cursor.remaining).map fun offset =>
      bitAt cursor.source.bytes (cursor.position + offset) := by
  apply List.ext_getElem
  · simp
  · intro index _ _
    simp [rest, BitString.toList]

/-- A stream is complete when less than a byte is left and none of what is left is set. -/
theorem finish_eq_ok_iff (cursor : Cursor) (stream : Stream) :
    cursor.finish stream = .ok () ↔
      cursor.rest.length < 8 ∧ ∀ bit ∈ cursor.rest, bit = false := by
  rw [length_rest, rest_eq_map]
  simp only [finish]
  split
  case isTrue long =>
    constructor
    · intro impossible
      cases impossible
    · rintro ⟨short, -⟩
      omega
  case isFalse short =>
    split
    case isTrue someSet =>
      constructor
      · intro impossible
        cases impossible
      · rintro ⟨-, allClear⟩
        simp only [List.any_eq_true, List.mem_range] at someSet
        rcases someSet with ⟨offset, inside, isSet⟩
        have clear := allClear _ (List.mem_map.mpr ⟨offset, List.mem_range.mpr inside, rfl⟩)
        simp [clear] at isSet
    case isFalse noneSet =>
      refine ⟨fun _ => ⟨by omega, ?_⟩, fun _ => rfl⟩
      intro bit member
      rcases List.mem_map.mp member with ⟨offset, inside, rfl⟩
      simp only [List.any_eq_true, not_exists, not_and, Bool.not_eq_true] at noneSet
      exact noneSet offset inside

end Cursor

section

variable {ε σ α β : Type} {first : EStateM ε σ α} {following : α → EStateM ε σ β} {state next : σ}

theorem bind_of_ok {value : α} (runs : first state = .ok value next) :
    (first >>= following) state = following value next := by
  change EStateM.bind first following state = _
  rw [EStateM.bind, runs]

theorem bind_of_error {error : ε} (fails : first state = .error error next) :
    (first >>= following) state = .error error next := by
  change EStateM.bind first following state = _
  rw [EStateM.bind, fails]

end

namespace Decoder

variable {ε ε' α β : Type}

/-- The decoder gives a value exactly when the bits ahead start with a writing of it, and stops
behind that writing. -/
def Recognizes (decoder : Decoder ε α) (Writes : α → List Bool → Prop) : Prop :=
  ∀ cursor value next, decoder cursor = .ok value next ↔
    ∃ written, Writes value written ∧ written <+: cursor.rest ∧
      next = cursor.advance written.length

namespace Recognizes

theorem congr {decoder : Decoder ε α} {Writes Writes' : α → List Bool → Prop}
    (recognizes : decoder.Recognizes Writes)
    (same : ∀ value written, Writes value written ↔ Writes' value written) :
    decoder.Recognizes Writes' := by
  intro cursor value next
  rw [recognizes cursor value next]
  apply exists_congr
  intro written
  rw [same]

theorem pure (result : α) :
    Recognizes (Pure.pure result : Decoder ε α) fun value written =>
      value = result ∧ written = [] := by
  intro cursor value next
  constructor
  · intro succeeds
    cases succeeds
    exact ⟨[], ⟨rfl, rfl⟩, List.nil_prefix, rfl⟩
  · rintro ⟨written, ⟨rfl, rfl⟩, -, rfl⟩
    rfl

theorem throw (error : ε) :
    Recognizes (MonadExcept.throw error : Decoder ε α) fun _ _ => False := by
  intro cursor value next
  constructor
  · intro impossible
    cases impossible
  · rintro ⟨_, impossible, -⟩
    exact impossible.elim

theorem bind_eq_ok_iff (decoder : Decoder ε α) (following : α → Decoder ε β) (cursor : Cursor)
    (value : β) (next : Cursor) :
    (decoder >>= following) cursor = .ok value next ↔
      ∃ first middle, decoder cursor = .ok first middle ∧
        following first middle = .ok value next := by
  change EStateM.bind decoder following cursor = _ ↔ _
  unfold EStateM.bind
  cases decoder cursor with
  | ok first middle =>
      constructor
      · intro succeeds
        exact ⟨first, middle, rfl, succeeds⟩
      · rintro ⟨_, _, same, succeeds⟩
        cases same
        exact succeeds
  | error error failed =>
      constructor
      · intro impossible
        cases impossible
      · rintro ⟨_, _, impossible, -⟩
        cases impossible

/-- One writing after the other is recognized by one decoder after the other. -/
theorem bind {decoder : Decoder ε α} {following : α → Decoder ε β}
    {Writes : α → List Bool → Prop} {Writes' : α → β → List Bool → Prop}
    (recognizes : decoder.Recognizes Writes)
    (continues : ∀ first, (∃ front, Writes first front) →
      (following first).Recognizes (Writes' first)) :
    (decoder >>= following).Recognizes fun value written =>
      ∃ first front back, Writes first front ∧ Writes' first value back ∧
        written = front ++ back := by
  intro cursor value next
  rw [bind_eq_ok_iff]
  constructor
  · rintro ⟨first, middle, readFirst, readRest⟩
    rcases (recognizes cursor first middle).mp readFirst with ⟨front, writes, ahead, rfl⟩
    rcases (continues first ⟨front, writes⟩ _ value next).mp readRest with ⟨back, writes', ahead', rfl⟩
    refine ⟨front ++ back, ⟨first, front, back, writes, writes', rfl⟩, ?_, by simp⟩
    rcases ahead with ⟨tail, split⟩
    rw [Cursor.rest_advance, ← split, List.drop_left] at ahead'
    rw [← split]
    exact (List.prefix_append_right_inj front).mpr ahead'
  · rintro ⟨written, ⟨first, front, back, writes, writes', rfl⟩, ahead, rfl⟩
    rcases ahead with ⟨tail, split⟩
    refine ⟨first, cursor.advance front.length, ?_, ?_⟩
    · rw [recognizes]
      refine ⟨front, writes, ⟨back ++ tail, ?_⟩, rfl⟩
      rw [← split, List.append_assoc]
    · rw [continues first ⟨front, writes⟩]
      refine ⟨back, writes', ⟨tail, ?_⟩, by simp⟩
      rw [Cursor.rest_advance, ← split, List.append_assoc, List.drop_left]

/-- A bit that is read first decides which decoder comes next. -/
theorem cond {decoder : Decoder ε Bool} {first second : Decoder ε α}
    {Writes Writes' : α → List Bool → Prop}
    (decides : decoder.Recognizes fun value written => written = [value])
    (recognizes : first.Recognizes Writes) (recognizes' : second.Recognizes Writes') :
    Recognizes (do if ← decoder then first else second) fun value written =>
      (∃ back, written = true :: back ∧ Writes value back) ∨
        ∃ back, written = false :: back ∧ Writes' value back := by
  have chosen : ∀ set, Recognizes (if set = true then first else second) fun value written =>
      if set = true then Writes value written else Writes' value written := by
    intro set
    cases set
    · exact recognizes'
    · exact recognizes
  refine (decides.bind fun set _ => chosen set).congr ?_
  intro value written
  constructor
  · rintro ⟨set, _, back, rfl, writes, rfl⟩
    cases set with
    | true => exact .inl ⟨back, rfl, writes⟩
    | false => exact .inr ⟨back, rfl, writes⟩
  · rintro (⟨back, rfl, writes⟩ | ⟨back, rfl, writes⟩)
    · exact ⟨true, [true], back, rfl, writes, rfl⟩
    · exact ⟨false, [false], back, rfl, writes, rfl⟩

/-- Failures may be renamed. -/
theorem adaptExcept {decoder : Decoder ε α} {Writes : α → List Bool → Prop} (rename : ε → ε')
    (recognizes : decoder.Recognizes Writes) :
    Recognizes (EStateM.adaptExcept rename decoder) Writes := by
  intro cursor value next
  rw [← recognizes cursor value next]
  unfold EStateM.adaptExcept
  cases decoder cursor with
  | ok found reached => simp
  | error error failed => simp

/-- A whole stream is accepted exactly if it is a writing, padded to whole bytes. -/
theorem whole_iff {decoder : Decoder ε α} {Writes : α → List Bool → Prop}
    (recognizes : decoder.Recognizes Writes) {bytes : ByteArray} {stream : Stream} {value : α} :
    (∃ cursor, decoder (.ofBytes bytes) = .ok value cursor ∧ cursor.finish stream = .ok ()) ↔
      ∃ written, Writes value written ∧ bytes = (BitString.ofBits written).bytes := by
  simp only [← BitString.padded_iff, BitString.toList_ofBits]
  constructor
  · rintro ⟨cursor, reads, finished⟩
    rcases (recognizes _ _ _).mp reads with ⟨written, writes, ⟨padding, split⟩, rfl⟩
    rw [Cursor.finish_eq_ok_iff, Cursor.rest_advance, ← split, List.drop_left] at finished
    exact ⟨written, writes, padding, finished, split.symm⟩
  · rintro ⟨written, writes, padding, short, split⟩
    have ahead : written <+: (Cursor.ofBytes bytes).rest := ⟨padding, split.symm⟩
    refine ⟨_, (recognizes _ _ _).mpr ⟨written, writes, ahead, rfl⟩, ?_⟩
    rw [Cursor.finish_eq_ok_iff, Cursor.rest_advance, Cursor.rest_ofBytes, split, List.drop_left]
    exact short

end Recognizes

theorem bit_recognizes (field : Field) :
    (bit field).Recognizes fun value written => written = [value] := by
  intro cursor value next
  simp only [bit]
  split
  case isTrue inside =>
    have ahead : cursor.rest = cursor.source.get cursor.position inside ::
        cursor.rest.drop 1 := by
      have listed : cursor.position < cursor.source.toList.length := by simpa using inside
      have found : cursor.source.toList[cursor.position] =
          cursor.source.get cursor.position inside := by
        have lookup := cursor.source.getElem?_toList cursor.position
        rw [BitString.get?, dif_pos inside] at lookup
        exact (List.getElem?_eq_some_iff.mp lookup).2
      rw [Cursor.rest, List.drop_drop, ← found]
      exact List.drop_eq_getElem_cons _
    constructor
    · intro succeeds
      cases succeeds
      refine ⟨_, rfl, ?_, rfl⟩
      rw [ahead]
      exact ⟨cursor.rest.drop 1, rfl⟩
    · rintro ⟨_, rfl, starts, rfl⟩
      rw [ahead, List.cons_prefix_cons] at starts
      rw [starts.1]
      rfl
  case isFalse past =>
    constructor
    · intro impossible
      cases impossible
    · rintro ⟨_, rfl, starts, -⟩
      have longEnough := starts.length_le
      rw [Cursor.length_rest, Cursor.remaining] at longEnough
      simp only [List.length_singleton] at longEnough
      omega

theorem bits_recognizes (count : Nat) (field : Field) :
    (bits count field).Recognizes fun value written =>
      value < 2 ^ count ∧ written = BitString.lowBits value count := by
  intro cursor value next
  simp only [bits]
  split
  case isTrue short =>
    constructor
    · intro impossible
      cases impossible
    · rintro ⟨_, ⟨-, rfl⟩, starts, -⟩
      have longEnough := starts.length_le
      rw [Cursor.length_rest, BitString.length_lowBits] at longEnough
      omega
  case isFalse enough =>
    have ahead : BitString.lowBits (cursor.source.natAt cursor.position count) count <+:
        cursor.rest := by
      rcases Nat.eq_zero_or_pos count with rfl | positive
      · exact List.nil_prefix
      · rw [BitString.lowBits_natAt, ← BitString.toList_drop_eq_map]
        · exact List.take_prefix _ _
        · rw [Cursor.remaining] at enough
          omega
    constructor
    · intro succeeds
      cases succeeds
      refine ⟨_, ⟨BitString.natAt_lt _ _ _, rfl⟩, ahead, ?_⟩
      rw [BitString.length_lowBits]
    · rintro ⟨_, ⟨small, rfl⟩, starts, rfl⟩
      have same : BitString.lowBits (cursor.source.natAt cursor.position count) count =
          BitString.lowBits value count :=
        (List.prefix_of_prefix_length_le ahead starts (by simp)).eq_of_length (by simp)
      rw [BitString.eq_of_lowBits_eq (BitString.natAt_lt _ _ _) small same,
        BitString.length_lowBits]

/-- Whole bytes are read as the bits of one byte after another, wherever they start. -/
theorem bytes_recognizes {count : Nat} (positive : 0 < count) (field : Field) :
    (bytes count field).Recognizes fun value written =>
      written = value.toList.flatMap fun byte => BitString.lowBits byte.toNat 8 := by
  intro cursor value next
  simp only [bytes]
  split
  case isTrue enough =>
    have ahead : (Vector.ofFn fun index : Fin count =>
          cursor.source.byteAt (cursor.position + 8 * index.val) (by omega)).toList.flatMap
        (fun byte => BitString.lowBits byte.toNat 8) <+: cursor.rest := by
      rw [Vector.toList_ofFn, BitString.flatMap_byteAt _ enough,
        ← BitString.toList_drop_eq_map _ enough]
      exact List.take_prefix _ _
    constructor
    · intro succeeds
      cases succeeds
      refine ⟨_, rfl, ahead, ?_⟩
      rw [BitString.length_flatMap_lowBits, Vector.length_toList]
    · rintro ⟨_, rfl, starts, rfl⟩
      have sameLength : ∀ listed : Vector UInt8 count,
          (listed.toList.flatMap fun byte => BitString.lowBits byte.toNat 8).length =
            8 * count := by
        intro listed
        rw [BitString.length_flatMap_lowBits, Vector.length_toList]
      have same := (List.prefix_of_prefix_length_le ahead starts
        (Nat.le_of_eq (by rw [sameLength, sameLength]))).eq_of_length
        (by rw [sameLength, sameLength])
      rw [BitString.length_flatMap_lowBits, Vector.length_toList,
        Vector.toList_inj.mp (BitString.eq_of_flatMap_lowBits_eq same)]
  case isFalse short =>
    constructor
    · intro impossible
      cases impossible
    · rintro ⟨_, rfl, starts, -⟩
      have longEnough := starts.length_le
      rw [BitString.length_flatMap_lowBits, Vector.length_toList, Cursor.length_rest,
        Cursor.remaining] at longEnough
      omega

end Decoder

end Simplicity
