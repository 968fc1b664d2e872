import Simplicity.Stream.Decoder

/-!
# The code for positive integers

Counts and offsets are written in a self-delimiting code: the code of `1` is the bit `0`, and
the code of a larger `n` is the bit `1`, the code of `k`, and the low `k` bits of `n`, where
`k` is the base-two logarithm of `n`. The code is used for `1` up to `maxNatural`.

Every level of the recursion puts a `1` in front, so a code starts with as many ones as it has
levels. No number in range has more than four levels, and the decoder gives up at the fifth `1`.
-/

namespace Simplicity

/-- The largest number that is written in the code, one less than two to the power 31. -/
def maxNatural : Nat :=
  2147483647

/-- The most levels that the code of a number in range has. -/
def maxNesting : Nat :=
  4

/-- The length of the code of a number. -/
def naturalLength (value : Nat) : Nat :=
  if value ≤ 1 then 1
  else 1 + naturalLength value.log2 + value.log2
termination_by value
decreasing_by exact (Nat.log2_lt (by omega)).2 Nat.lt_two_pow_self

namespace BitString

/-- Appends the code of a number, whatever its size. -/
def appendCode (out : BitString) (value : Nat) : BitString :=
  if value ≤ 1 then out.push false
  else ((out.push true).appendCode value.log2).appendBits value value.log2
termination_by value
decreasing_by exact (Nat.log2_lt (by omega)).2 Nat.lt_two_pow_self

/-- Appends the code of a number in range. -/
def appendNatural (out : BitString) (value : Nat) (field : Field) :
    Except StreamError BitString :=
  if value = 0 ∨ maxNatural < value then
    .error (.naturalOverflow field)
  else
    .ok (out.appendCode value)

end BitString

namespace Decoder

/-- Counts the ones in front of a zero, consuming both, as long as there are no more than
`allowed` of them. -/
def ones (field : Field) : (allowed : Nat) → Decoder StreamError Nat
  | 0 => do
      if ← bit field then throw (.naturalOverflow field) else return 0
  | allowed + 1 => do
      if ← bit field then return (← ones field allowed) + 1 else return 0

/-- Reads one level after another: each value read is the width of the next. -/
def levels (field : Field) : (count value : Nat) → Decoder StreamError Nat
  | 0, value => return value
  | count + 1, value => do
      if 30 < value then
        throw (.naturalOverflow field)
      let low ← bits value field
      levels field count (1 <<< value + low)

/-- Reads a number written in the code. -/
def natural (field : Field) : Decoder StreamError Nat := do
  let count ← ones field maxNesting
  levels field count 1

end Decoder

end Simplicity
