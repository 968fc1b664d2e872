import Simplicity.Hash.Tagged

/-!
# Types

Types are built from the unit type with sums and products. A type may share its parts so heavily
that it is exponentially larger than what is stored of it, and so nothing here may walk it. The
two facts about a type that everything else asks for are therefore stored in each of its parts:

* its width, the number of bits that the largest of its values takes, as far as that number fits
  in 64 bits;
* its root, the digest that stands for it in the roots of expressions.
-/

namespace Simplicity

/-- The largest width, and the largest number of cells or frames, that is told apart:
one less than two to the power 64. -/
def maxWidth : Nat :=
  18446744073709551615

namespace TypeTag

def unit : Digest :=
  domainState "Type" "unit"

/-- The state that roots of sums start from. -/
def sum : Digest :=
  domainState "Type" "sum"

/-- The state that roots of products start from. -/
def prod : Digest :=
  domainState "Type" "prod"

end TypeTag

inductive Ty where
  /-- The type of the one empty value. -/
  | unit
  /-- The values of either of two types, told apart by where they come from. -/
  | sum (left right : Ty)
  /-- The pairs of values of two types. -/
  | prod (left right : Ty)
with
  /-- The number of bits of the largest values, at most `maxWidth`. -/
  @[computed_field] width : Ty → Nat
    | .unit => 0
    | .sum left right => min (1 + max left.width right.width) maxWidth
    | .prod left right => min (left.width + right.width) maxWidth
  /-- The digest that stands for the type. -/
  @[computed_field] root : Ty → Digest
    | .unit => TypeTag.unit
    | .sum left right => TypeTag.sum.absorb left.root right.root
    | .prod left right => TypeTag.prod.absorb left.root right.root

namespace Ty

instance : Inhabited Ty :=
  ⟨.unit⟩

/-- The outermost constructor of a type. -/
inductive Shape where
  | unit
  | sum
  | prod
  deriving DecidableEq, Repr

def Shape.name : Shape → String
  | .unit => "unit"
  | .sum => "sum"
  | .prod => "product"

/-- The outermost constructor of a type. -/
def shape : Ty → Shape
  | .unit => .unit
  | .sum _ _ => .sum
  | .prod _ _ => .prod

def asSum : Ty → Option (Ty × Ty)
  | .sum left right => some (left, right)
  | _ => none

def asProd : Ty → Option (Ty × Ty)
  | .prod left right => some (left, right)
  | _ => none

/-- The type of a bit: a left value is zero and a right one is one. -/
def bit : Ty :=
  .sum .unit .unit

/-- The type of words of `2 ^ level` bits, a pair of halves at every level. -/
def word : (level : Nat) → Ty
  | 0 => bit
  | level + 1 => let half := word level; .prod half half

def word256 : Ty :=
  word 8

def sameRoot (left right : Ty) : Bool :=
  left.root == right.root

end Ty

/-- The source and the target of a typed expression. -/
structure Arrow where
  source : Ty
  target : Ty

end Simplicity
