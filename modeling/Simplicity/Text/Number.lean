/-!
# Decimal numbers in arguments

A number is a row of decimal digits, with a plus sign in front or without. It is read from left
to right, so of a digit too many and a character that is no digit the first one counts.
-/

namespace Simplicity.Text

/-- Why a text is not a number in range. -/
inductive NumberError where
  | empty
  | invalidDigit
  | tooLarge
  deriving DecidableEq, Repr

def NumberError.message : NumberError → String
  | .empty => "cannot parse integer from empty string"
  | .invalidDigit => "invalid digit found in string"
  | .tooLarge => "number too large to fit in target type"

/-- Reads digits after a value has been read. -/
def digits (highest : Nat) : List Char → (value : Nat) → Except NumberError Nat
  | [], value => .ok value
  | character :: rest, value =>
      if '0' ≤ character ∧ character ≤ '9' then
        let value := 10 * value + (character.toNat - '0'.toNat)
        if value ≤ highest then digits highest rest value else .error .tooLarge
      else
        .error .invalidDigit

/-- Reads a number not above a highest one. -/
def number (highest : Nat) (text : String) : Except NumberError Nat :=
  match text.toList with
  | [] => .error .empty
  | ['+'] => .error .invalidDigit
  | '+' :: rest => digits highest rest 0
  | characters => digits highest characters 0

end Simplicity.Text
