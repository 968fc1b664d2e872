import Simplicity.BitString.Basic
import Simplicity.Hash.Compression

/-!
# SHA-256 of bit strings

A message of any number of bits is hashed from the bytes that hold it. A one is put behind its last
bit, zero bytes follow until only the length is missing from a block of 64 bytes, and the length
ends it in eight bytes. The digest is what the compression function makes of the blocks one after
another.
-/

namespace Simplicity.Sha256

/-- Puts a one behind the bits that the bytes hold: in a byte of its own if the last one is full. -/
def close (bytes : ByteArray) (length : Nat) : ByteArray :=
  if length % 8 = 0 then
    bytes.push 0x80
  else if nonempty : bytes.size - 1 < bytes.size then
    bytes.set (bytes.size - 1) (bytes[bytes.size - 1] ||| 0x80 >>> UInt8.ofNat (length % 8))
  else
    bytes

/-- Adds zero bytes until eight bytes are missing from the last block. -/
def fillUp (bytes : ByteArray) : ByteArray :=
  if bytes.size % 64 = 56 then bytes else fillUp (bytes.push 0)
termination_by (120 - bytes.size % 64) % 64
decreasing_by
  rw [ByteArray.size_push]
  omega

/-- The bytes of a machine word, most significant first. -/
def lengthBytes (length : UInt64) : ByteArray :=
  ⟨Array.ofFn fun index : Fin 8 => (length >>> UInt64.ofNat (56 - 8 * index.val)).toUInt8⟩

def padBytes (message : BitString) : ByteArray :=
  fillUp (close message.bytes message.length) ++ lengthBytes (UInt64.ofNat message.length)

/-- The block at an index of the bytes of a message, each word from its most significant byte. -/
def chunkAt (bytes : ByteArray) (index : Nat) (inside : index < bytes.size / 64) : Block :=
  Vector.ofFn fun word =>
    let start := 64 * index + 4 * word.val
    Digest.wordOfBytes bytes[start] bytes[start + 1] bytes[start + 2] bytes[start + 3]

def hash (message : BitString) : Digest :=
  let bytes := padBytes message
  Nat.fold (bytes.size / 64) (fun index inside state => compress state (chunkAt bytes index inside))
    initial

end Simplicity.Sha256
