import Mathlib.Data.List.Basic
import Mathlib.Data.List.Induction
import Simplicity.Hash.Hex

/-!
# Hexadecimal text and bytes

Reading works on the bytes of a text, but what it accepts can be said of the characters: a text is
read if and only if it is an even number of digits, and what is read is the one list of bytes that
is written as the text in lower case. Between the two stand the halves of bytes, which are the
values of digits.

Writing is tied to numbers: the text of some bytes is the hexadecimal number that they write, most
significant byte first, filled up with zeros.
-/

namespace Simplicity.Hex

variable {byte high low value : UInt8} {bytes digits values : List UInt8} {character : Char}
  {text : String} {position : Nat}

/-- The digits of both cases. -/
def digitChars : List Char :=
  ['0', '1', '2', '3', '4', '5', '6', '7', '8', '9', 'a', 'b', 'c', 'd', 'e', 'f',
    'A', 'B', 'C', 'D', 'E', 'F']

/-- The text is a row of `count` digits, each of either case. -/
def IsDigits (count : Nat) (text : String) : Prop :=
  text.length = count ∧ ∀ character ∈ text.toList, character ∈ digitChars

instance (count : Nat) (text : String) : Decidable (IsDigits count text) :=
  decidable_of_iff (text.length = count ∧ text.toList.all digitChars.contains) (by simp [IsDigits])

/-! ## Halves of bytes -/

/-- The values of the two digits of a byte. -/
def halves (byte : UInt8) : List UInt8 :=
  [byte >>> 4, byte &&& 15]

theorem toNat_high (byte : UInt8) : (byte >>> 4).toNat = byte.toNat / 16 := by
  rw [UInt8.toNat_shiftRight]
  exact Nat.shiftRight_eq_div_pow _ 4

theorem toNat_low (byte : UInt8) : (byte &&& 15).toNat = byte.toNat % 16 := by
  rw [UInt8.toNat_and]
  exact Nat.and_two_pow_sub_one_eq_mod _ 4

theorem toNat_join (highSmall : high < 16) (lowSmall : low < 16) :
    (high <<< 4 ||| low).toNat = 16 * high.toNat + low.toNat := by
  have highLt : high.toNat < 16 := highSmall
  have lowLt : low.toNat < 2 ^ 4 := lowSmall
  have shifted : (high <<< 4).toNat = high.toNat <<< 4 := by
    rw [UInt8.toNat_shiftLeft]
    change high.toNat <<< 4 % 2 ^ 8 = _
    rw [Nat.shiftLeft_eq]
    omega
  rw [UInt8.toNat_or, shifted, ← Nat.shiftLeft_add_eq_or_of_lt lowLt, Nat.shiftLeft_eq]
  omega

theorem join_eq_iff (highSmall : high < 16) (lowSmall : low < 16) :
    high <<< 4 ||| low = byte ↔ high = byte >>> 4 ∧ low = byte &&& 15 := by
  have highLt : high.toNat < 16 := highSmall
  have lowLt : low.toNat < 16 := lowSmall
  have byteLt := byte.toNat_lt
  rw [← UInt8.toNat_inj, ← UInt8.toNat_inj, ← UInt8.toNat_inj, toNat_join highSmall lowSmall,
    toNat_high, toNat_low]
  omega

theorem high_lt (byte : UInt8) : byte >>> 4 < 16 := by
  have byteLt := byte.toNat_lt
  rw [UInt8.lt_iff_toNat_lt, toNat_high]
  change byte.toNat / 16 < 16
  omega

theorem low_lt (byte : UInt8) : byte &&& 15 < 16 := by
  rw [UInt8.lt_iff_toNat_lt, toNat_low]
  exact Nat.mod_lt _ (by decide)

theorem lt_of_mem_flatMap_halves (mem : value ∈ bytes.flatMap halves) : value < 16 := by
  rcases List.mem_flatMap.mp mem with ⟨byte, -, half⟩
  simp only [halves, List.mem_cons, List.not_mem_nil, or_false] at half
  rcases half with rfl | rfl
  · exact high_lt byte
  · exact low_lt byte

theorem length_flatMap_halves (bytes : List UInt8) :
    (bytes.flatMap halves).length = 2 * bytes.length := by
  induction bytes with
  | nil => rfl
  | cons byte bytes ih =>
      rw [List.flatMap_cons, List.length_append, ih, List.length_cons]
      change 2 + 2 * bytes.length = _
      omega

theorem exists_flatMap_halves {count : Nat} (even : values.length = 2 * count)
    (small : ∀ value ∈ values, value < 16) :
    ∃ bytes : List UInt8, bytes.flatMap halves = values := by
  induction count generalizing values with
  | zero =>
      have none := List.eq_nil_of_length_eq_zero even
      exact ⟨[], none.symm⟩
  | succ count ih =>
      match values, even with
      | high :: low :: rest, even =>
          have evenRest : rest.length = 2 * count := by
            simp only [List.length_cons] at even
            omega
          have smallRest : ∀ value ∈ rest, value < 16 := by
            intro value mem
            exact small value (List.mem_cons_of_mem _ (List.mem_cons_of_mem _ mem))
          rcases ih evenRest smallRest with ⟨bytes, rfl⟩
          have joined := (join_eq_iff (small high (by simp)) (small low (by simp))).mp rfl
          refine ⟨(high <<< 4 ||| low) :: bytes, ?_⟩
          rw [List.flatMap_cons, halves, ← joined.1, ← joined.2]
          rfl

/-! ## Digits -/

theorem digit?_lt_of_some (read : digit? byte = some value) : value < 16 := by
  grind [digit?]

theorem digit?_of_large (large : 128 ≤ byte) : digit? byte = none := by
  grind [digit?]

theorem digitChar_eq (small : value < 16) : digitChar value = Nat.digitChar value.toNat := by
  have same : ∀ number < 16, digitChar (UInt8.ofNat number) = Nat.digitChar number := by decide
  simpa using same value.toNat small

theorem digitChar_mem (small : value < 16) : digitChar value ∈ digitChars := by
  have listed : ∀ number < 16, digitChar (UInt8.ofNat number) ∈ digitChars := by decide
  simpa using listed value.toNat small

theorem toLower_digitChar (small : value < 16) : (digitChar value).toLower = digitChar value := by
  have lower : ∀ number < 16,
      (digitChar (UInt8.ofNat number)).toLower = digitChar (UInt8.ofNat number) := by decide
  simpa using lower value.toNat small

theorem forall_digitChars {property : Char → Prop} [DecidablePred property]
    (all : digitChars.all fun character => property character) :
    ∀ character ∈ digitChars, property character := by
  simpa using all

/-- A digit has the value that is written as the digit in lower case. -/
theorem digit?_eq_some_iff (isDigit : character ∈ digitChars) (small : value < 16) :
    digit? character.toUInt8 = some value ↔ character.toLower = digitChar value := by
  have agree : ∀ character ∈ digitChars, ∀ number < 16,
      (digit? character.toUInt8 = some (UInt8.ofNat number) ↔
        character.toLower = digitChar (UInt8.ofNat number)) := forall_digitChars (by decide)
  simpa using agree character isDigit value.toNat small

theorem map_digit?_eq_iff {characters : List Char}
    (areDigits : ∀ character ∈ characters, character ∈ digitChars)
    (small : ∀ value ∈ values, value < 16) :
    (characters.map Char.toUInt8).map digit? = values.map some ↔
      characters.map Char.toLower = values.map digitChar := by
  induction characters generalizing values with
  | nil => simp
  | cons character characters ih =>
      cases values with
      | nil => simp
      | cons value values =>
          rw [List.forall_mem_cons] at areDigits small
          simp only [List.map_cons, List.cons.injEq]
          rw [digit?_eq_some_iff areDigits.1 small.1, ih areDigits.2 small.2]

theorem exists_values {characters : List Char}
    (areDigits : ∀ character ∈ characters, character ∈ digitChars) :
    ∃ values : List UInt8, (∀ value ∈ values, value < 16) ∧
      characters.map Char.toLower = values.map digitChar := by
  have valued : ∀ character ∈ digitChars, ∃ value < 16, character.toLower = digitChar value := by
    have known : ∀ character ∈ digitChars,
        (digit? character.toUInt8).getD 0 < 16 ∧
          character.toLower = digitChar ((digit? character.toUInt8).getD 0) :=
      forall_digitChars (by decide)
    intro character isDigit
    exact ⟨_, known character isDigit⟩
  induction characters with
  | nil => exact ⟨[], by simp, rfl⟩
  | cons character characters ih =>
      rw [List.forall_mem_cons] at areDigits
      rcases valued character areDigits.1 with ⟨value, smallFirst, lowerFirst⟩
      rcases ih areDigits.2 with ⟨values, small, lower⟩
      refine ⟨value :: values, List.forall_mem_cons.mpr ⟨smallFirst, small⟩, ?_⟩
      rw [List.map_cons, List.map_cons, lowerFirst, lower]

/-! ## Characters as bytes -/

theorem utf8EncodeChar_of_mem (isDigit : character ∈ digitChars) :
    String.utf8EncodeChar character = [character.toUInt8] := by
  have single : ∀ character ∈ digitChars,
      String.utf8EncodeChar character = [character.toUInt8] := forall_digitChars (by decide)
  exact single character isDigit

/-- The last byte of a character beyond the first 128 is no digit. -/
theorem exists_unread_of_beyond (beyond : 128 ≤ character.toNat) :
    ∃ byte ∈ String.utf8EncodeChar character, digit? byte = none := by
  refine ⟨UInt8.ofNat (character.toNat % 64 + 128), ?_, digit?_of_large ?_⟩
  · have notAscii : ¬ character.val.toNat ≤ 127 := Nat.not_le.mpr beyond
    simp only [String.utf8EncodeChar, if_neg notAscii]
    split_ifs <;> simp
  · rw [UInt8.le_iff_toNat_le, UInt8.toNat_ofNat_of_lt' (by simp only [UInt8.size]; omega)]
    exact Nat.le_add_left _ _

/-- A character all of whose bytes are digits is a digit. -/
theorem mem_digitChars_of_read
    (read : ∀ byte ∈ String.utf8EncodeChar character, digit? byte ≠ none) :
    character ∈ digitChars := by
  rcases Nat.lt_or_ge character.toNat 128 with ascii | beyond
  · have listed : ∀ number < 128,
        digit? (UInt8.ofNat number) ≠ none → Char.ofNat number ∈ digitChars := by decide +kernel
    have single : String.utf8EncodeChar character = [UInt8.ofNat character.toNat] :=
      if_pos (Nat.le_of_lt_succ ascii)
    rw [single, List.forall_mem_singleton] at read
    have isDigit := listed character.toNat ascii read
    rwa [Char.ofNat_toNat] at isDigit
  · rcases exists_unread_of_beyond beyond with ⟨byte, mem, unread⟩
    exact absurd unread (read byte mem)

theorem toList_toUTF8 (text : String) :
    text.toUTF8.data.toList = text.toList.flatMap String.utf8EncodeChar := by
  conv_lhs => rw [← String.ofList_toList (s := text)]
  rw [String.toUTF8_eq_toByteArray, String.toByteArray_ofList]
  exact List.toList_data_toByteArray

theorem toList_toUTF8_of_digits (areDigits : ∀ character ∈ text.toList, character ∈ digitChars) :
    text.toUTF8.data.toList = text.toList.map Char.toUInt8 := by
  rw [toList_toUTF8, List.map_eq_flatMap]
  apply List.flatMap_congr
  intro character mem
  exact utf8EncodeChar_of_mem (areDigits character mem)

/-! ## Reading -/

theorem pairs_cons_cons_eq_ok_iff : pairs position (high :: low :: digits) = .ok bytes ↔
    ∃ first second rest, digit? high = some first ∧ digit? low = some second ∧
      pairs (position + 2) digits = .ok rest ∧ (first <<< 4 ||| second) :: rest = bytes := by
  simp only [pairs, digit]
  rcases digit? high with _ | first
  · simp [bind, Except.bind]
  · rcases digit? low with _ | second
    · simp [bind, Except.bind]
    · rcases pairs (position + 2) digits with _ | rest
      · simp [bind, Except.bind]
      · simp [bind, Except.bind, pure, Except.pure]

theorem pairs_eq_ok_iff (even : digits.length % 2 = 0) :
    pairs position digits = .ok bytes ↔ digits.map digit? = (bytes.flatMap halves).map some := by
  -- Two digits are read at a time, and an even number of them never leaves one over.
  induction position, digits using pairs.induct generalizing bytes with
  | case1 position high low rest ih =>
      have evenRest : rest.length % 2 = 0 := by
        simp only [List.length_cons] at even
        omega
      rw [pairs_cons_cons_eq_ok_iff]
      cases bytes with
      | nil => simp
      | cons byte bytes =>
          simp only [List.map_cons, List.flatMap_cons, halves, List.cons_append, List.nil_append,
            List.cons.injEq, ← ih evenRest]
          constructor
          · rintro ⟨first, second, tail, readHigh, readLow, readRest, joined, rfl⟩
            have joined := (join_eq_iff (digit?_lt_of_some readHigh)
              (digit?_lt_of_some readLow)).mp joined
            exact ⟨joined.1 ▸ readHigh, joined.2 ▸ readLow, readRest⟩
          · rintro ⟨readHigh, readLow, readRest⟩
            refine ⟨_, _, _, readHigh, readLow, readRest, ?_, rfl⟩
            exact (join_eq_iff (digit?_lt_of_some readHigh) (digit?_lt_of_some readLow)).mpr
              ⟨rfl, rfl⟩
  | case2 digits position short =>
      match digits, short with
      | [], _ => cases bytes <;> simp [pairs, halves]
      | [_], _ => simp at even
      | high :: low :: rest, short => exact (short high low rest rfl).elim

theorem decode_eq_ok_iff_map : decode text = .ok bytes ↔
    text.toUTF8.data.toList.map digit? = (bytes.flatMap halves).map some := by
  simp only [decode]
  split_ifs with odd
  · -- The right side has an even number of elements.
    refine iff_of_false (by simp) ?_
    intro same
    have lengths := congrArg List.length same
    rw [List.length_map, List.length_map, length_flatMap_halves] at lengths
    omega
  · exact pairs_eq_ok_iff (by omega)

theorem toList_encode (bytes : List UInt8) :
    (encode bytes).toList = (bytes.flatMap halves).map digitChar := by
  rw [encode, String.toList_ofList, List.map_flatMap]
  rfl

theorem encode_eq_toLower_iff : encode bytes = text.toLower ↔
    text.toList.map Char.toLower = (bytes.flatMap halves).map digitChar := by
  change encode bytes = text.map Char.toLower ↔ _
  rw [← String.toList_inj, toList_encode, String.toList_map]
  exact eq_comm

/-- Reading gives those bytes that are written as the text in lower case. -/
theorem decode_eq_ok_iff : decode text = .ok bytes ↔
    (∀ character ∈ text.toList, character ∈ digitChars) ∧ encode bytes = text.toLower := by
  rw [decode_eq_ok_iff_map, encode_eq_toLower_iff]
  constructor
  · intro read
    have areDigits : ∀ character ∈ text.toList, character ∈ digitChars := by
      intro character mem
      apply mem_digitChars_of_read
      intro byte memByte unread
      have listed : byte ∈ text.toUTF8.data.toList := by
        rw [toList_toUTF8]
        exact List.mem_flatMap.mpr ⟨character, mem, memByte⟩
      have absent : none ∈ (bytes.flatMap halves).map some := by
        rw [← read, ← unread]
        exact List.mem_map_of_mem listed
      simp at absent
    rw [toList_toUTF8_of_digits areDigits,
      map_digit?_eq_iff areDigits fun _ => lt_of_mem_flatMap_halves] at read
    exact ⟨areDigits, read⟩
  · rintro ⟨areDigits, lower⟩
    rw [toList_toUTF8_of_digits areDigits,
      map_digit?_eq_iff areDigits fun _ => lt_of_mem_flatMap_halves]
    exact lower

theorem decode_encode (bytes : List UInt8) : decode (encode bytes) = .ok bytes := by
  rw [decode_eq_ok_iff, encode_eq_toLower_iff, toList_encode, List.map_map]
  constructor
  · intro character mem
    rcases List.mem_map.mp mem with ⟨value, half, rfl⟩
    exact digitChar_mem (lt_of_mem_flatMap_halves half)
  · apply List.map_congr_left
    intro value half
    exact toLower_digitChar (lt_of_mem_flatMap_halves half)

/-- A text is read as a number of bytes if and only if it is twice as many digits. -/
theorem exists_decode_iff (count : Nat) (text : String) :
    (∃ bytes, decode text = .ok bytes ∧ bytes.length = count) ↔ IsDigits (2 * count) text := by
  have same_length : ∀ bytes, encode bytes = text.toLower → text.length = 2 * bytes.length := by
    intro bytes lower
    have lengths := congrArg List.length (encode_eq_toLower_iff.mp lower)
    rwa [List.length_map, List.length_map, length_flatMap_halves, String.length_toList] at lengths
  constructor
  · rintro ⟨bytes, read, rfl⟩
    rcases decode_eq_ok_iff.mp read with ⟨areDigits, lower⟩
    exact ⟨same_length bytes lower, areDigits⟩
  · rintro ⟨length_eq, areDigits⟩
    rcases exists_values areDigits with ⟨values, small, lower⟩
    have even : values.length = 2 * count := by
      have lengths := congrArg List.length lower
      rw [List.length_map, List.length_map, String.length_toList] at lengths
      omega
    rcases exists_flatMap_halves even small with ⟨bytes, rfl⟩
    have written := encode_eq_toLower_iff.mpr lower
    refine ⟨bytes, decode_eq_ok_iff.mpr ⟨areDigits, written⟩, ?_⟩
    have := same_length bytes written
    omega

example : IsDigits 4 "aBcD" ∧ decode "aBcD" = .ok [0xab, 0xcd] := by decide

theorem exists_decode_eq_ok_iff :
    (∃ bytes, decode text = .ok bytes) ↔ ∃ count, IsDigits (2 * count) text := by
  constructor
  · rintro ⟨bytes, read⟩
    exact ⟨bytes.length, (exists_decode_iff _ text).mp ⟨bytes, read, rfl⟩⟩
  · rintro ⟨count, areDigits⟩
    rcases (exists_decode_iff count text).mpr areDigits with ⟨bytes, read, -⟩
    exact ⟨bytes, read⟩

/-! ## Numbers -/

/-- A number with zeros in front ends in its last digit; the rest has one digit less. -/
theorem leftpad_toDigits_succ {width : Nat} (wide : 0 < width) (number : Nat) :
    (Nat.toDigits 16 number).leftpad (width + 1) '0' =
      (Nat.toDigits 16 (number / 16)).leftpad width '0' ++ [Nat.digitChar (number % 16)] := by
  rcases Nat.lt_or_ge number 16 with short | long
  · rcases Nat.exists_eq_succ_of_ne_zero (Nat.ne_of_gt wide) with ⟨filled, rfl⟩
    rw [Nat.div_eq_of_lt short, Nat.mod_eq_of_lt short, Nat.toDigits_of_lt_base short,
      Nat.toDigits_zero]
    simp only [List.leftpad, List.length_singleton, Nat.add_sub_cancel]
    rw [List.replicate_succ', Nat.succ_sub_one]
  · rw [Nat.toDigits_of_base_le (by decide) long]
    simp only [List.leftpad, List.length_append, List.length_singleton, Nat.add_sub_add_right,
      List.append_assoc]

theorem byteDigits_eq (byte : UInt8) :
    byteDigits byte = [Nat.digitChar (byte.toNat / 16), Nat.digitChar (byte.toNat % 16)] := by
  rw [byteDigits, digitChar_eq (high_lt byte), digitChar_eq (low_lt byte), toNat_high, toNat_low]

theorem leftpad_toDigits_byte (byte : UInt8) :
    (Nat.toDigits 16 byte.toNat).leftpad 2 '0' = byteDigits byte := by
  have small : byte.toNat / 16 < 16 := by
    have := byte.toNat_lt
    omega
  rw [leftpad_toDigits_succ (by decide), Nat.toDigits_of_lt_base small, byteDigits_eq]
  rfl

theorem leftpad_toDigits_append {width : Nat} (wide : 0 < width) (number : Nat) (byte : UInt8) :
    (Nat.toDigits 16 (256 * number + byte.toNat)).leftpad (width + 2) '0' =
      (Nat.toDigits 16 number).leftpad width '0' ++ byteDigits byte := by
  have byteLt := byte.toNat_lt
  have front : (256 * number + byte.toNat) / 16 / 16 = number := by omega
  have high : (256 * number + byte.toNat) / 16 % 16 = byte.toNat / 16 := by omega
  have low : (256 * number + byte.toNat) % 16 = byte.toNat % 16 := by omega
  rw [leftpad_toDigits_succ (by omega), leftpad_toDigits_succ wide, front, high, low,
    byteDigits_eq, List.append_assoc]
  rfl

/-- The number that bytes write, the first one most significant. -/
def number (bytes : List UInt8) : Nat :=
  bytes.foldl (fun number byte => 256 * number + byte.toNat) 0

/-- The digits of bytes are those of their number, with zeros in front. -/
theorem flatMap_byteDigits (some_byte : bytes ≠ []) :
    bytes.flatMap byteDigits = (Nat.toDigits 16 (number bytes)).leftpad (2 * bytes.length) '0' := by
  -- A division takes off the last digits, so the last byte is split off first.
  induction bytes using List.reverseRecOn with
  | nil => exact absurd rfl some_byte
  | append_singleton front byte ih =>
      have split : number (front ++ [byte]) = 256 * number front + byte.toNat :=
        List.foldl_append
      rw [List.flatMap_append, List.flatMap_singleton, split]
      cases front with
      | nil => simpa [number] using (leftpad_toDigits_byte byte).symm
      | cons first rest =>
          have wide : 0 < 2 * (first :: rest).length := by simp
          rw [ih (by simp), ← leftpad_toDigits_append wide, List.length_append,
            List.length_singleton, Nat.mul_add]

end Simplicity.Hex
