/-!
# Hexadecimal text

Bytes are written as two lower-case digits each, the high half first. Reading accepts both
cases. It works on the bytes of the text, so a position in a complaint counts bytes, and an odd
number of bytes is a complaint of its own that comes before any other.
-/

namespace Simplicity.Hex

inductive Error where
  /-- A last digit has no partner. -/
  | oddLength
  /-- The byte at a position is no digit. -/
  | invalidDigit (byte : UInt8) (position : Nat)
  deriving DecidableEq, Repr

def digit? (byte : UInt8) : Option UInt8 :=
  if 48 ≤ byte ∧ byte ≤ 57 then some (byte - 48)
  else if 97 ≤ byte ∧ byte ≤ 102 then some (byte - 87)
  else if 65 ≤ byte ∧ byte ≤ 70 then some (byte - 55)
  else none

/-- Reads the digit found at a position. -/
def digit (byte : UInt8) (position : Nat) : Except Error UInt8 :=
  match digit? byte with
  | some value => .ok value
  | none => .error (.invalidDigit byte position)

/-- Reads pairs of digits, the first of which stands at `position`. -/
def pairs (position : Nat) : List UInt8 → Except Error (List UInt8)
  | high :: low :: rest => do
      let high ← digit high position
      let low ← digit low (position + 1)
      return (high <<< 4 ||| low) :: (← pairs (position + 2) rest)
  | _ => .ok []

def decode (text : String) : Except Error (List UInt8) :=
  let digits := text.toUTF8.data.toList
  if digits.length % 2 = 1 then .error .oddLength else pairs 0 digits

/-- The digit of a value below sixteen. -/
def digitChar (value : UInt8) : Char :=
  if value < 10 then Char.ofNat (48 + value.toNat) else Char.ofNat (87 + value.toNat)

def byteDigits (byte : UInt8) : List Char :=
  [digitChar (byte >>> 4), digitChar (byte &&& 15)]

def encode (bytes : List UInt8) : String :=
  String.ofList (bytes.flatMap byteDigits)

end Simplicity.Hex
