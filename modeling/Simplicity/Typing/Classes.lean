import Simplicity.Typing.Error

/-!
# Classes of type variables

Inference works on variables that stand for types. Variables that must stand for the same type
are in one class, and each class has a representative, its root, which carries what is known of
the type: nothing yet, that it is the unit type, or that it is a sum or a product of the types
of two other variables.

The classes are trees of parent references. Finding a root shortens the path that was followed,
and of two trees that are joined the one of lower rank goes below the other, so that paths stay
short. Neither changes which variables share a class.

Joining two classes whose types are both sums, or both products, means that their parts have to
be joined as well. The parts wait in a list of pairs. Each join leaves one class fewer, so no more
than `2 * size + 1` pairs are ever taken from the list, and that bound is the fuel of the loop.
-/

namespace Simplicity.Typing

abbrev Var : Type :=
  Nat

/-- What is known of the type of a class. -/
inductive Bound where
  | free
  | unit
  /-- It is the sum of the types of two variables. -/
  | sum (left right : Var)
  /-- It is the product of the types of two variables. -/
  | prod (left right : Var)
  deriving DecidableEq, Repr

namespace Bound

/-- The constructor that messages name; a type of which nothing is known counts as unit. -/
def shape : Bound → Ty.Shape
  | .free | .unit => .unit
  | .sum _ _ => .sum
  | .prod _ _ => .prod

/-- The variables that stand for the parts of the type. -/
def parts : Bound → List Var
  | .free | .unit => []
  | .sum left right | .prod left right => [left, right]

/-- What is known of a class that is joined from two, and the pairs of parts that have to be
joined in turn; nothing if the two differ in their constructors. -/
def merge? : Bound → Bound → Option (Bound × List (Var × Var))
  | .free, other => some (other, [])
  | other, .free => some (other, [])
  | .unit, .unit => some (.unit, [])
  | .sum left right, .sum left' right' => some (.sum left right, [(left, left'), (right, right')])
  | .prod left right, .prod left' right' =>
      some (.prod left right, [(left, left'), (right, right')])
  | _, _ => none

end Bound

/-- The parent of a variable; a root is its own parent. -/
def parentOf (parents : Array Var) (var : Var) : Var :=
  parents.getD var var

/-- Follows parents to a root. -/
def chase (parents : Array Var) : (fuel : Nat) → Var → Var
  | 0, var => var
  | fuel + 1, var =>
      if parentOf parents var = var then var else chase parents fuel (parentOf parents var)

/-- Puts every variable on the way from a variable to its root directly below the root. -/
def shorten (root : Var) : (fuel : Nat) → Array Var → Var → Array Var
  | 0, parents, _ => parents
  | fuel + 1, parents, var =>
      let next := parentOf parents var
      if next = root then parents
      else shorten root fuel (parents.setIfInBounds var root) next

structure Classes where
  parent : Array Var
  /-- A bound on the height of the tree below each variable. -/
  rank : Array Nat
  /-- What is known of the type; only the entries of roots count. -/
  bound : Array Bound

namespace Classes

def empty : Classes :=
  ⟨#[], #[], #[]⟩

def size (classes : Classes) : Nat :=
  classes.parent.size

def rankOf (classes : Classes) (var : Var) : Nat :=
  classes.rank.getD var 0

/-- What is recorded of the type of a variable. -/
def boundOf (classes : Classes) (var : Var) : Bound :=
  classes.bound.getD var .free

/-- Adds a variable in a class of its own, of whose type something may be known. -/
def push (classes : Classes) (bound : Bound) : Classes :=
  ⟨classes.parent.push classes.parent.size, classes.rank.push 0, classes.bound.push bound⟩

def root (classes : Classes) (var : Var) : Var :=
  chase classes.parent classes.parent.size var

/-- The root of a variable, and the classes with the path to it shortened. -/
def find : Classes → Var → Var × Classes
  | ⟨parent, rank, bound⟩, var =>
      let root := chase parent parent.size var
      (root, ⟨shorten root parent.size parent var, rank, bound⟩)

/-- Joins the classes of two different roots into one with the given bound: the root of lower
rank goes below the other, and of two roots of one rank the first stays and gains a rank. -/
def link (classes : Classes) (left right : Var) (bound : Bound) : Classes :=
  if classes.rankOf left < classes.rankOf right then
    { parent := classes.parent.setIfInBounds left right
      rank := classes.rank
      bound := classes.bound.setIfInBounds right bound }
  else
    let rank := classes.rankOf left
    { parent := classes.parent.setIfInBounds right left
      rank :=
        if rank = classes.rankOf right then classes.rank.setIfInBounds left (rank + 1)
        else classes.rank
      bound := classes.bound.setIfInBounds left bound }

/-- Joins pairs of classes, and the parts of their types, as long as there are any; `node` is
blamed for a failure. -/
def unifyAll (node : Nat) : (fuel : Nat) → List (Var × Var) → Classes → Except TypeError Classes
  | 0, _, classes => .ok classes
  | _ + 1, [], classes => .ok classes
  | fuel + 1, (left, right) :: work, classes =>
      let (left, classes) := classes.find left
      let (right, classes) := classes.find right
      if left = right then
        unifyAll node fuel work classes
      else
        let leftBound := classes.boundOf left
        let rightBound := classes.boundOf right
        match leftBound.merge? rightBound with
        | none => .error (.unify node leftBound.shape rightBound.shape)
        | some (bound, more) => unifyAll node fuel (more ++ work) (classes.link left right bound)

/-- Makes two variables stand for the same type. -/
def unify (classes : Classes) (left right : Var) (node : Nat) : Except TypeError Classes :=
  unifyAll node (2 * classes.size + 1) [(left, right)] classes

/-- Makes a variable stand for a type of which something is known. -/
def bind (classes : Classes) (var : Var) (bound : Bound) (node : Nat) : Except TypeError Classes :=
  let shaped := classes.size
  (classes.push bound).unify var shaped node

end Classes

end Simplicity.Typing
