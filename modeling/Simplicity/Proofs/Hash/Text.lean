import Mathlib.Data.List.OfFn
import Simplicity.Proofs.Hash.Digest
import Simplicity.Proofs.Hash.Hex

/-!
# The text of digests

A digest is written word by word, but read byte by byte. The two agree because a word is the number
that its four bytes write, and the zeros in front of the word stand in for those in its bytes. So
the text is the hexadecimal form of the bytes, and it is read as the digest. Any other text that is
read as the digest differs in case only, and the complaint about a text that is not read depends on
nothing but whether it is made of digits and how many.
-/

namespace Simplicity.Digest

variable {digest : Digest} {text : String}

/-! ## Writing by words and by bytes -/

/-- The bytes of a word, most significant first. -/
def bytesOfWord (word : UInt32) : List UInt8 :=
  List.ofFn fun offset : Fin 4 => byteOfWord word offset

theorem number_bytesOfWord (word : UInt32) : Hex.number (bytesOfWord word) = word.toNat := by
  have joined := toNat_wordOfBytes (byteOfWord word 0) (byteOfWord word 1) (byteOfWord word 2)
    (byteOfWord word 3)
  rw [wordOfBytes_byteOfWord] at joined
  simp only [Hex.number, bytesOfWord, List.ofFn_succ, List.ofFn_zero, List.foldl_cons,
    List.foldl_nil]
  rw [joined]
  change 256 * (256 * (256 * (256 * 0 + (byteOfWord word 0).toNat) + (byteOfWord word 1).toNat) +
    (byteOfWord word 2).toNat) + (byteOfWord word 3).toNat = _
  omega

theorem wordDigits_eq (word : UInt32) :
    wordDigits word = (bytesOfWord word).flatMap Hex.byteDigits := by
  have some_byte : bytesOfWord word ≠ [] := by simp [bytesOfWord]
  rw [Hex.flatMap_byteDigits some_byte, number_bytesOfWord, bytesOfWord, List.length_ofFn]
  rfl

example : wordDigits 0xab = ['0', '0', '0', '0', '0', '0', 'a', 'b'] := by decide

theorem toList_toBytes (digest : Digest) :
    digest.toBytes.toList = digest.words.toList.flatMap bytesOfWord := by
  have place_eq : ∀ (index : Fin 8) (offset : Fin 4),
      (index.val * 4 + offset.val) / 4 = index.val ∧
        (index.val * 4 + offset.val) % 4 = offset.val := by omega
  have words_eq : digest.words.toList = List.ofFn fun index : Fin 8 => digest.words[index] := by
    rw [← Vector.toList_ofFn]
    simp
  rw [toBytes, Vector.toList_ofFn, words_eq, List.flatMap_def, List.map_ofFn]
  refine (List.ofFn_mul (m := 8) (n := 4) _).trans ?_
  simp only [place_eq]
  rfl

theorem toString_eq_toHex (digest : Digest) : toString digest = digest.toHex := by
  change String.ofList (digest.words.toList.flatMap wordDigits) = _
  rw [toHex, Hex.encode, toList_toBytes, List.flatMap_assoc, funext wordDigits_eq]

/-! ## Reading -/

theorem ofBytes_eq_iff {bytes : Vector UInt8 32} :
    ofBytes bytes = digest ↔ bytes = digest.toBytes := by
  constructor
  · rintro rfl
    exact (toBytes_ofBytes bytes).symm
  · rintro rfl
    exact ofBytes_toBytes digest

theorem parse_eq_ok_iff_decode :
    parse text = .ok digest ↔ Hex.decode text = .ok digest.toBytes.toList := by
  rw [parse]
  split
  case h_1 unread => simp [unread]
  case h_2 bytes read =>
    rw [read, Except.ok.injEq]
    split_ifs with exact_length
    · rw [Except.ok.injEq, ofBytes_eq_iff, ← Vector.toList_inj, Vector.toList_mk]
    · refine iff_of_false (by simp) ?_
      intro same
      exact exact_length (same ▸ digest.toBytes.length_toList)

theorem parse_eq_invalidLength_iff {got : Nat} :
    parse text = .error (.invalidLength got) ↔
      (∃ bytes, Hex.decode text = .ok bytes ∧ bytes.length = got) ∧ got ≠ 32 := by
  rw [parse]
  split
  case h_1 unread => simp [unread]
  case h_2 bytes read =>
    simp only [read, Except.ok.injEq, exists_eq_left']
    split_ifs with exact_length
    · refine iff_of_false (by simp) ?_
      rintro ⟨rfl, other⟩
      exact other exact_length
    · rw [Except.error.injEq, ParseError.invalidLength.injEq]
      constructor
      · rintro rfl
        exact ⟨rfl, exact_length⟩
      · exact And.left

theorem parse_eq_invalidHex_iff :
    parse text = .error .invalidHex ↔ ¬ ∃ bytes, Hex.decode text = .ok bytes := by
  rw [parse]
  split
  case h_1 unread => simp [unread]
  case h_2 bytes read =>
    refine iff_of_false ?_ (not_not_intro ⟨bytes, read⟩)
    split_ifs <;> simp

theorem parse_toHex (digest : Digest) : parse digest.toHex = .ok digest :=
  parse_eq_ok_iff_decode.mpr (Hex.decode_encode _)

theorem exists_parse_iff : (∃ digest, parse text = .ok digest) ↔ Hex.IsDigits 64 text := by
  refine Iff.trans ?_ (Hex.exists_decode_iff 32 text)
  constructor
  · rintro ⟨digest, read⟩
    exact ⟨_, parse_eq_ok_iff_decode.mp read, digest.toBytes.length_toList⟩
  · rintro ⟨bytes, read, whole⟩
    refine ⟨ofBytes ⟨bytes.toArray, whole⟩, parse_eq_ok_iff_decode.mpr ?_⟩
    rw [read, toBytes_ofBytes]
    rfl

/-- Words, bytes and text are forms of one digest. A text is read if and only if it is 64 digits of
either case, as the digest whose hexadecimal form it is in lower case; another even number of digits
is a wrong length, and anything else is no hexadecimal text. -/
theorem parse_inverts_toString (digest : Digest) (bytes : Vector UInt8 32) (text : String) :
    (ofBytes digest.toBytes = digest ∧ (ofBytes bytes).toBytes = bytes) ∧
      (toString digest = digest.toHex ∧ parse (toString digest) = .ok digest) ∧
      ((∃ parsed, parse text = .ok parsed) ↔ Hex.IsDigits 64 text) ∧
      (parse text = .ok digest ↔ Hex.IsDigits 64 text ∧ digest.toHex = text.toLower) ∧
      (∀ got, parse text = .error (.invalidLength got) ↔
        Hex.IsDigits (2 * got) text ∧ got ≠ 32) ∧
      (parse text = .error .invalidHex ↔ ¬ ∃ got, Hex.IsDigits (2 * got) text) := by
  refine ⟨⟨ofBytes_toBytes digest, toBytes_ofBytes bytes⟩, ⟨toString_eq_toHex digest, ?_⟩,
    exists_parse_iff, ?_, ?_, ?_⟩
  · rw [toString_eq_toHex]
    exact parse_toHex digest
  · constructor
    · intro read
      have lower := (Hex.decode_eq_ok_iff.mp (parse_eq_ok_iff_decode.mp read)).2
      exact ⟨exists_parse_iff.mp ⟨digest, read⟩, lower⟩
    · rintro ⟨⟨_, areDigits⟩, lower⟩
      exact parse_eq_ok_iff_decode.mpr (Hex.decode_eq_ok_iff.mpr ⟨areDigits, lower⟩)
  · intro got
    rw [parse_eq_invalidLength_iff, Hex.exists_decode_iff]
  · rw [parse_eq_invalidHex_iff, Hex.exists_decode_eq_ok_iff]

end Simplicity.Digest
