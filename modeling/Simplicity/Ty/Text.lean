import Simplicity.Ty.Basic

/-!
# The text of types

The unit type is written `1`, a sum `(A + B)` and a product `(A × B)`; an arrow is written
`A ⊢ B`. The text of a type is as large as the type unfolded, so besides the whole text there is
one that is given up as soon as it is longer than a limit.
-/

namespace Simplicity

/-- Adds a piece to a text that must stay within a number of bytes. -/
def extendWithin (limit : Nat) (text piece : String) : Option String :=
  let longer := text ++ piece
  if longer.utf8ByteSize ≤ limit then some longer else none

namespace Ty

def text : Ty → String
  | .unit => "1"
  | .sum left right => "(" ++ left.text ++ " + " ++ right.text ++ ")"
  | .prod left right => "(" ++ left.text ++ " × " ++ right.text ++ ")"

/-- Adds the text of a type to a text that must stay within a number of bytes. -/
def writeWithin (limit : Nat) : Ty → String → Option String
  | .unit, out => extendWithin limit out "1"
  | .sum left right, out => do
      let out ← extendWithin limit out "("
      let out ← left.writeWithin limit out
      let out ← extendWithin limit out " + "
      let out ← right.writeWithin limit out
      extendWithin limit out ")"
  | .prod left right, out => do
      let out ← extendWithin limit out "("
      let out ← left.writeWithin limit out
      let out ← extendWithin limit out " × "
      let out ← right.writeWithin limit out
      extendWithin limit out ")"

/-- The text of a type, unless it is longer than a number of bytes. -/
def textWithin (limit : Nat) (ty : Ty) : Option String :=
  ty.writeWithin limit ""

end Ty

namespace Arrow

def text (arrow : Arrow) : String :=
  arrow.source.text ++ " ⊢ " ++ arrow.target.text

/-- The text of an arrow, unless it is longer than a number of bytes. -/
def textWithin (limit : Nat) (arrow : Arrow) : Option String := do
  let out ← arrow.source.writeWithin limit ""
  let out ← extendWithin limit out " ⊢ "
  arrow.target.writeWithin limit out

end Arrow

end Simplicity
