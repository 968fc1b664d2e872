import Simplicity.Hash.Digest

/-!
# The SHA-256 compression function

The compression function takes a chaining state of eight words and a block of sixteen to a new
state. The block is stretched to a schedule of sixty-four words, the state runs through one
round for each of them, and what comes out is added to the state that went in.
-/

namespace Simplicity

abbrev Block : Type :=
  Vector UInt32 16

namespace Sha256

def initial : Digest :=
  ⟨#v[0x6a09e667, 0xbb67ae85, 0x3c6ef372, 0xa54ff53a, 0x510e527f, 0x9b05688c, 0x1f83d9ab,
    0x5be0cd19]⟩

def roundConstants : List UInt32 :=
  [0x428a2f98, 0x71374491, 0xb5c0fbcf, 0xe9b5dba5, 0x3956c25b, 0x59f111f1, 0x923f82a4, 0xab1c5ed5,
    0xd807aa98, 0x12835b01, 0x243185be, 0x550c7dc3, 0x72be5d74, 0x80deb1fe, 0x9bdc06a7, 0xc19bf174,
    0xe49b69c1, 0xefbe4786, 0x0fc19dc6, 0x240ca1cc, 0x2de92c6f, 0x4a7484aa, 0x5cb0a9dc, 0x76f988da,
    0x983e5152, 0xa831c66d, 0xb00327c8, 0xbf597fc7, 0xc6e00bf3, 0xd5a79147, 0x06ca6351, 0x14292967,
    0x27b70a85, 0x2e1b2138, 0x4d2c6dfc, 0x53380d13, 0x650a7354, 0x766a0abb, 0x81c2c92e, 0x92722c85,
    0xa2bfe8a1, 0xa81a664b, 0xc24b8b70, 0xc76c51a3, 0xd192e819, 0xd6990624, 0xf40e3585, 0x106aa070,
    0x19a4c116, 0x1e376c08, 0x2748774c, 0x34b0bcb5, 0x391c0cb3, 0x4ed8aa4a, 0x5b9cca4f, 0x682e6ff3,
    0x748f82ee, 0x78a5636f, 0x84c87814, 0x8cc70208, 0x90befffa, 0xa4506ceb, 0xbef9a3f7, 0xc67178f2]

/-- Rotates a word towards its least significant bit. -/
def rotate (word amount : UInt32) : UInt32 :=
  word >>> amount ||| word <<< (32 - amount)

/-- Mixes the word fifteen places back into the schedule. -/
def scheduleLow (word : UInt32) : UInt32 :=
  rotate word 7 ^^^ rotate word 18 ^^^ word >>> 3

/-- Mixes the word two places back into the schedule. -/
def scheduleHigh (word : UInt32) : UInt32 :=
  rotate word 17 ^^^ rotate word 19 ^^^ word >>> 10

/-- Extends a schedule of at least sixteen words by a number of further ones. -/
def extend (schedule : Array UInt32) : Nat → Array UInt32
  | 0 => schedule
  | count + 1 =>
      let back (distance : Nat) : UInt32 := schedule.getD (schedule.size - distance) 0
      extend
        (schedule.push (back 16 + scheduleLow (back 15) + back 7 + scheduleHigh (back 2))) count

structure Registers where
  (a b c d e f g h : UInt32)

/-- One round, with the sum of its constant and its word of the schedule. -/
def Registers.round (registers : Registers) (term : UInt32) : Registers :=
  let ⟨a, b, c, d, e, f, g, h⟩ := registers
  let choice := (e &&& f) ^^^ (~~~e &&& g)
  let majority := (a &&& b) ^^^ (a &&& c) ^^^ (b &&& c)
  let first := h + (rotate e 6 ^^^ rotate e 11 ^^^ rotate e 25) + choice + term
  let second := (rotate a 2 ^^^ rotate a 13 ^^^ rotate a 22) + majority
  ⟨first + second, a, b, c, d + first, e, f, g⟩

def Registers.ofDigest (state : Digest) : Registers :=
  let words := state.words
  ⟨words[0], words[1], words[2], words[3], words[4], words[5], words[6], words[7]⟩

def Registers.toDigest (registers : Registers) : Digest :=
  let ⟨a, b, c, d, e, f, g, h⟩ := registers
  ⟨#v[a, b, c, d, e, f, g, h]⟩

def rounds (registers : Registers) (schedule : Array UInt32) : Registers :=
  (roundConstants.zipWith (· + ·) schedule.toList).foldl Registers.round registers

def compress (state : Digest) (block : Block) : Digest :=
  let schedule := extend block.toArray 48
  let final := (rounds (.ofDigest state) schedule).toDigest
  ⟨state.words.zipWith (· + ·) final.words⟩

end Sha256

end Simplicity
