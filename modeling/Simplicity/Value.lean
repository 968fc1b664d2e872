import Simplicity.BitString.Basic
import Simplicity.Ty.Basic

/-!
# Values

The compact encoding of a value at a type writes nothing for a type of width zero, one bit for
the side of a sum (zero for left) and then the value inside, and for a product its components
one after the other. A type of width zero has a single value as far as the encoding goes, and
`Value.unit` is the only one accepted for it, so that reading gives back exactly what was written.
-/

namespace Simplicity

inductive Value where
  | unit
  | left (inner : Value)
  | right (inner : Value)
  | pair (first second : Value)
  deriving DecidableEq, Repr

/-- What the entries of a stack weigh together. A loop over a stack ends if it puts on lighter entries
than it takes. -/
def stackWeight {α : Type} (weight : α → Nat) : List α → Nat
  | [] => 0
  | entry :: stack => weight entry + stackWeight weight stack

namespace Value

inductive Error where
  | typeMismatch
  /-- The bits ended inside the value. -/
  | endOfBits (consumed : Nat)
  /-- Bits are left over after the value. -/
  | trailingBits (unused : Nat)
  deriving DecidableEq, Repr

def Error.message : Error → String
  | .typeMismatch => "value does not inhabit the requested type"
  | .endOfBits consumed => s!"bitstring ended after {consumed} bits"
  | .trailingBits unused => s!"{unused} bits remain after the value"

/-- A bit as a value of `Ty.bit`. -/
def bit (set : Bool) : Value :=
  if set then .right .unit else .left .unit

/-- The low bits of a number as nested pairs, the high half first. The number of bits is meant to
be a power of two; another one is halved, rounding down, until a single bit is left. -/
def word (value bits : Nat) : Value :=
  if bits ≤ 1 then bit (value.testBit 0)
  else .pair (word (value >>> (bits / 2)) (bits / 2)) (word (value % (1 <<< (bits / 2))) (bits / 2))
termination_by bits

/-- Appends the compact encodings of values at types one after another. What was appended before a
mismatch was found stays. -/
def writeAll : List (Value × Ty) → EStateM Error BitString Unit
  | [] => return ()
  | (value, ty) :: pending =>
    if ty.width = 0 then
      match value with
      | .unit => writeAll pending
      | _ => throw .typeMismatch
    else
      match value, ty with
      | .unit, .unit => writeAll pending
      | .left inner, .sum leftTy _ => do
          modify (·.push false)
          writeAll ((inner, leftTy) :: pending)
      | .right inner, .sum _ rightTy => do
          modify (·.push true)
          writeAll ((inner, rightTy) :: pending)
      | .pair first second, .prod firstTy secondTy =>
          writeAll ((first, firstTy) :: (second, secondTy) :: pending)
      | _, _ => throw .typeMismatch
termination_by pending => stackWeight (fun entry => sizeOf entry.1) pending
decreasing_by
  all_goals simp only [stackWeight, unit.sizeOf_spec, left.sizeOf_spec, right.sizeOf_spec,
    pair.sizeOf_spec]
  all_goals omega

/-- Appends the compact encoding of a value at a type. -/
def write (value : Value) (ty : Ty) : EStateM Error BitString Unit :=
  writeAll [(value, ty)]

/-- The compact encoding of a value at a type. -/
def toBits (value : Value) (ty : Ty) : Except Error BitString :=
  match value.write ty .empty with
  | .ok () out => .ok out
  | .error error _ => .error error

/-- What the reader of a value has still to do. -/
inductive Step where
  /-- To read a value of a type. -/
  | decode (ty : Ty)
  /-- To make a left value of the last value that was read. -/
  | wrapLeft
  /-- To make a right value of it. -/
  | wrapRight
  /-- To make a pair of the last two values that were read. -/
  | pair

/-- A bound on the steps that a step may come to, by which reading ends. -/
noncomputable def Step.weight : Step → Nat
  | .decode ty => 3 * sizeOf ty + 1
  | .wrapLeft | .wrapRight | .pair => 1

/-- Takes the value that was put on a stack last. -/
def pop : List Value → Except Error (Value × List Value)
  | [] => .error .typeMismatch
  | value :: values => .ok (value, values)

/-- Does steps one after another, with the values read so far, the last one first, and the number of
bits consumed for them. -/
def readAll (bits : BitString) :
    List Step → List Value → (consumed : Nat) → Except Error (List Value × Nat)
  | [], values, consumed => .ok (values, consumed)
  | .decode ty :: steps, values, consumed =>
    if ty.width = 0 then
      readAll bits steps (.unit :: values) consumed
    else
      match ty with
      | .unit => readAll bits steps (.unit :: values) consumed
      | .sum leftTy rightTy =>
          match bits.get? consumed with
          | none => .error (.endOfBits consumed)
          | some false => readAll bits (.decode leftTy :: .wrapLeft :: steps) values (consumed + 1)
          | some true => readAll bits (.decode rightTy :: .wrapRight :: steps) values (consumed + 1)
      | .prod firstTy secondTy =>
          readAll bits (.decode firstTy :: .decode secondTy :: .pair :: steps) values consumed
  | .wrapLeft :: steps, values, consumed => do
      let (inner, values) ← pop values
      readAll bits steps (.left inner :: values) consumed
  | .wrapRight :: steps, values, consumed => do
      let (inner, values) ← pop values
      readAll bits steps (.right inner :: values) consumed
  | .pair :: steps, values, consumed => do
      let (second, values) ← pop values
      let (first, values) ← pop values
      readAll bits steps (.pair first second :: values) consumed
termination_by steps => stackWeight Step.weight steps
decreasing_by
  all_goals simp only [stackWeight, Step.weight, Ty.sum.sizeOf_spec, Ty.prod.sizeOf_spec,
    Ty.unit.sizeOf_spec]
  all_goals omega

/-- The value of a type that takes all of the bits. -/
def ofBits (bits : BitString) (ty : Ty) : Except Error Value := do
  let (values, consumed) ← readAll bits [.decode ty] [] 0
  let unused := bits.length - consumed
  if 0 < unused then
    throw (.trailingBits unused)
  let (value, _) ← pop values
  return value

end Value

end Simplicity
