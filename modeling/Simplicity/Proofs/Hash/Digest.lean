import Mathlib.Algebra.Ring.Nat
import Simplicity.Hash.Digest

/-!
# The byte form of digests

A word and its four bytes determine each other, and so do a digest and its thirty-two bytes. Both
directions are arithmetic once a word is written as a sum of its bytes. Likewise a digest is determined
by its number, in which the words are the digits.
-/

namespace Simplicity.Digest

theorem toNat_wordOfBytes (first second third fourth : UInt8) :
    (wordOfBytes first second third fourth).toNat =
      first.toNat * 2 ^ 24 + (second.toNat * 2 ^ 16 + (third.toNat * 2 ^ 8 + fourth.toNat)) := by
  have firstLt := first.toNat_lt
  have secondLt := second.toNat_lt
  have thirdLt := third.toNat_lt
  have fourthLt := fourth.toNat_lt
  have shifted : ∀ (byte : UInt8) (amount : UInt32), amount.toNat ≤ 24 →
      (byte.toUInt32 <<< amount).toNat = byte.toNat <<< amount.toNat := by
    intro byte amount small
    rw [UInt32.toNat_shiftLeft, UInt8.toNat_toUInt32, Nat.mod_eq_of_lt (by omega : _ < 32)]
    apply Nat.mod_eq_of_lt
    rw [Nat.shiftLeft_eq]
    calc byte.toNat * 2 ^ amount.toNat < 2 ^ 8 * 2 ^ amount.toNat :=
          Nat.mul_lt_mul_of_pos_right byte.toNat_lt (Nat.two_pow_pos _)
      _ ≤ 2 ^ 8 * 2 ^ 24 := Nat.mul_le_mul_left _ (Nat.pow_le_pow_right (by decide) small)
      _ = 2 ^ 32 := by decide
  have third_fourth : third.toNat <<< 8 ||| fourth.toNat =
      third.toNat * 2 ^ 8 + fourth.toNat := by
    rw [← Nat.shiftLeft_add_eq_or_of_lt fourthLt, Nat.shiftLeft_eq]
  have second_third : second.toNat <<< 16 ||| (third.toNat * 2 ^ 8 + fourth.toNat) =
      second.toNat * 2 ^ 16 + (third.toNat * 2 ^ 8 + fourth.toNat) := by
    rw [← Nat.shiftLeft_add_eq_or_of_lt (by omega), Nat.shiftLeft_eq]
  have first_second : first.toNat <<< 24 |||
        (second.toNat * 2 ^ 16 + (third.toNat * 2 ^ 8 + fourth.toNat)) =
      first.toNat * 2 ^ 24 + (second.toNat * 2 ^ 16 + (third.toNat * 2 ^ 8 + fourth.toNat)) := by
    rw [← Nat.shiftLeft_add_eq_or_of_lt (by omega), Nat.shiftLeft_eq]
  simp only [wordOfBytes, UInt32.toNat_or]
  rw [shifted first 24 (by decide), shifted second 16 (by decide), shifted third 8 (by decide),
    UInt8.toNat_toUInt32]
  change first.toNat <<< 24 ||| second.toNat <<< 16 ||| third.toNat <<< 8 ||| fourth.toNat = _
  rw [Nat.or_assoc, Nat.or_assoc, third_fourth, second_third, first_second]

theorem toNat_byteOfWord (word : UInt32) {offset : Nat} (small : offset < 4) :
    (byteOfWord word offset).toNat = word.toNat / 2 ^ (24 - 8 * offset) % 256 := by
  have amount : (UInt32.ofNat (24 - 8 * offset)).toNat = 24 - 8 * offset := by
    rw [UInt32.toNat_ofNat_of_lt']
    simp only [UInt32.size]
    omega
  rw [byteOfWord, UInt32.toNat_toUInt8, UInt32.toNat_shiftRight, amount,
    Nat.mod_eq_of_lt (by omega : 24 - 8 * offset < 32), Nat.shiftRight_eq_div_pow]

theorem wordOfBytes_byteOfWord (word : UInt32) :
    wordOfBytes (byteOfWord word 0) (byteOfWord word 1) (byteOfWord word 2) (byteOfWord word 3) =
      word := by
  have small := word.toNat_lt
  apply UInt32.toNat_inj.mp
  rw [toNat_wordOfBytes, toNat_byteOfWord word (by decide), toNat_byteOfWord word (by decide),
    toNat_byteOfWord word (by decide), toNat_byteOfWord word (by decide)]
  omega

theorem byteOfWord_wordOfBytes (bytes : Vector UInt8 32) {index offset : Nat} (inside : index < 8)
    (small : offset < 4) :
    byteOfWord (wordOfBytes bytes[4 * index] bytes[4 * index + 1] bytes[4 * index + 2]
      bytes[4 * index + 3]) offset = bytes[4 * index + offset] := by
  have firstLt := (bytes[4 * index]).toNat_lt
  have secondLt := (bytes[4 * index + 1]).toNat_lt
  have thirdLt := (bytes[4 * index + 2]).toNat_lt
  have fourthLt := (bytes[4 * index + 3]).toNat_lt
  apply UInt8.toNat_inj.mp
  rw [toNat_byteOfWord _ small, toNat_wordOfBytes]
  match offset, small with
  | 0, _ => simp only [Nat.add_zero]; omega
  | 1, _ => omega
  | 2, _ => omega
  | 3, _ => omega

@[simp]
theorem toBytes_ofBytes (bytes : Vector UInt8 32) : (ofBytes bytes).toBytes = bytes := by
  apply Vector.ext
  intro index inside
  simp only [toBytes, ofBytes, Vector.getElem_ofFn]
  rw [byteOfWord_wordOfBytes bytes (by omega) (Nat.mod_lt _ (by decide))]
  congr 1
  omega

@[simp]
theorem ofBytes_toBytes (digest : Digest) : ofBytes digest.toBytes = digest := by
  rcases digest with ⟨words⟩
  simp only [ofBytes, Digest.mk.injEq]
  apply Vector.ext
  intro index inside
  have sameWord : ∀ offset, offset < 4 → (4 * index + offset) / 4 = index := by
    intro offset small
    omega
  have sameOffset : ∀ offset, offset < 4 → (4 * index + offset) % 4 = offset := by
    intro offset small
    omega
  simp only [toBytes, Vector.getElem_ofFn]
  have first := sameWord 0 (by decide)
  have firstOffset := sameOffset 0 (by decide)
  rw [Nat.add_zero] at first firstOffset
  simp only [first, firstOffset, sameWord 1 (by decide), sameWord 2 (by decide),
    sameWord 3 (by decide), sameOffset 1 (by decide), sameOffset 2 (by decide),
    sameOffset 3 (by decide)]
  exact wordOfBytes_byteOfWord _

theorem eq_of_foldl_words_eq {words words' : List UInt32} (length_eq : words.length = words'.length)
    {value value' : Nat}
    (same : words.foldl (fun value word => value * 4294967296 + word.toNat) value =
      words'.foldl (fun value word => value * 4294967296 + word.toNat) value') :
    value = value' ∧ words = words' := by
  induction words generalizing words' value value' with
  | nil =>
      cases words' with
      | nil => exact ⟨same, rfl⟩
      | cons => cases length_eq
  | cons word words ih =>
      cases words' with
      | nil => cases length_eq
      | cons word' words' =>
          rcases ih (Nat.succ.inj length_eq) same with ⟨digits_eq, rfl⟩
          dsimp only at digits_eq
          have small := word.toNat_lt
          have small' := word'.toNat_lt
          have word_eq : word = word' := UInt32.toNat_inj.mp (by omega)
          exact ⟨by omega, congrArg (· :: words) word_eq⟩

theorem toNat_injective : Function.Injective toNat := by
  rintro ⟨words⟩ ⟨words'⟩ same
  simp only [toNat, ← Vector.foldl_toList] at same
  have words_eq := (eq_of_foldl_words_eq (by simp) same).2
  exact congrArg mk (Vector.toList_inj.mp words_eq)

end Simplicity.Digest
