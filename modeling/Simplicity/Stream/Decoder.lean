import Simplicity.BitString.Basic
import Simplicity.Stream.Error

/-!
# Reading bitstreams

A `Cursor` is a bit string together with the position reached in it, and a `Decoder` is a
computation that advances a cursor or fails. A failing decoder still says how far it came: a
reader of a single field looks first whether enough bits are left and consumes nothing when they
are not, but a field made of several parts may have consumed the first of them.
-/

namespace Simplicity

structure Cursor where
  source : BitString
  /-- How many of them have been consumed. -/
  position : Nat

namespace Cursor

/-- The start of a byte sequence. -/
def ofBytes (bytes : ByteArray) : Cursor :=
  ⟨.ofBytes bytes, 0⟩

def remaining (cursor : Cursor) : Nat :=
  cursor.source.length - cursor.position

/-- The same bits, `count` positions further on. -/
def advance (cursor : Cursor) (count : Nat) : Cursor :=
  { cursor with position := cursor.position + count }

/-- Succeeds when only zero padding of less than a byte is left. -/
def finish (cursor : Cursor) (stream : Stream) : Except StreamError Unit :=
  if 8 ≤ cursor.remaining then
    .error (.trailingBytes stream cursor.position cursor.remaining)
  else if (List.range cursor.remaining).any fun offset =>
      bitAt cursor.source.bytes (cursor.position + offset) then
    .error (.illegalPadding stream cursor.position)
  else
    .ok ()

end Cursor

/-- A computation that reads from a cursor and may fail, in either case leaving the cursor where
it came to. -/
abbrev Decoder (ε α : Type) : Type :=
  EStateM ε Cursor α

namespace Decoder

def bit (field : Field) : Decoder StreamError Bool := fun cursor =>
  if inside : cursor.position < cursor.source.length then
    .ok (cursor.source.get cursor.position inside) (cursor.advance 1)
  else
    .error (.unexpectedEnd field) cursor

/-- Reads a number of `count` bits, most significant first. -/
def bits (count : Nat) (field : Field) : Decoder StreamError Nat := fun cursor =>
  if cursor.remaining < count then
    .error (.unexpectedEnd field) cursor
  else
    .ok (cursor.source.natAt cursor.position count) (cursor.advance count)

/-- Reads `count` whole bytes, which may start anywhere in a stored byte. -/
def bytes (count : Nat) (field : Field) : Decoder StreamError (Vector UInt8 count) := fun cursor =>
  if enough : cursor.position + 8 * count ≤ cursor.source.length then
    .ok
      (Vector.ofFn fun index =>
        cursor.source.byteAt (cursor.position + 8 * index.val) (by omega))
      (cursor.advance (8 * count))
  else
    .error (.unexpectedEnd field) cursor

end Decoder

end Simplicity
