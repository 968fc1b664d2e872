import Simplicity.Hash.Hex

/-!
# Digests

A digest is 256 bits held as eight words. Its byte form writes the words in order, each with its
most significant byte first. Its text is written from the words and the hexadecimal form from the
bytes; a text is read as bytes. Digests are ordered as the numbers that their bytes write.
-/

namespace Simplicity

structure Digest where
  /-- The eight words, most significant first. -/
  words : Vector UInt32 8
  deriving DecidableEq

namespace Digest

inductive ParseError where
  | invalidHex
  /-- The text writes another number of bytes. -/
  | invalidLength (got : Nat)
  deriving DecidableEq, Repr

def ParseError.message : ParseError → String
  | .invalidHex => "digest is not valid hexadecimal"
  | .invalidLength got => s!"digest must be 32 bytes, got {got}"

def zero : Digest :=
  ⟨Vector.replicate 8 0⟩

instance : Inhabited Digest :=
  ⟨zero⟩

/-- The word whose bytes are given, most significant first. -/
def wordOfBytes (first second third fourth : UInt8) : UInt32 :=
  first.toUInt32 <<< 24 ||| second.toUInt32 <<< 16 ||| third.toUInt32 <<< 8 ||| fourth.toUInt32

/-- The byte of a word at an offset from its most significant one. -/
def byteOfWord (word : UInt32) (offset : Nat) : UInt8 :=
  (word >>> UInt32.ofNat (24 - 8 * offset)).toUInt8

/-- The digest whose byte form is given. -/
def ofBytes (bytes : Vector UInt8 32) : Digest where
  words := Vector.ofFn fun index =>
    wordOfBytes bytes[4 * index.val] bytes[4 * index.val + 1] bytes[4 * index.val + 2]
      bytes[4 * index.val + 3]

def toBytes (digest : Digest) : Vector UInt8 32 :=
  Vector.ofFn fun index => byteOfWord digest.words[index.val / 4] (index.val % 4)

def toNat (digest : Digest) : Nat :=
  digest.words.foldl (fun value word => value * 4294967296 + word.toNat) 0

instance : Ord Digest :=
  ⟨fun left right => compare left.toNat right.toNat⟩

def toHex (digest : Digest) : String :=
  Hex.encode digest.toBytes.toList

/-- The hexadecimal number of a word, filled up with zeros to eight digits. -/
def wordDigits (word : UInt32) : List Char :=
  (Nat.toDigits 16 word.toNat).leftpad 8 '0'

instance : ToString Digest :=
  ⟨fun digest => String.ofList (digest.words.toList.flatMap wordDigits)⟩

/-- Reads the text of a digest, in either case. -/
def parse (text : String) : Except ParseError Digest :=
  match Hex.decode text with
  | .error _ => .error .invalidHex
  | .ok bytes =>
      if exact : bytes.length = 32 then
        .ok (ofBytes ⟨bytes.toArray, by simpa using exact⟩)
      else
        .error (.invalidLength bytes.length)

end Digest

end Simplicity
