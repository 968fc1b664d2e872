import Simplicity.Typing.Classes
import Simplicity.Visit

/-!
# Reading types off classes

Once all constraints are imposed, the type of a variable is read off its class: the sum or the
product of the types of the parts, and the unit type where nothing is known. A depth-first walk
finds the types of all classes that a variable leads to, and each class is given its type once.
A class that is entered again before it has been left would have to contain itself.

Each class is entered for the first time once and then adds at most three visits to the walk, so
`3 * size + 1` visits suffice for a walk.
-/

namespace Simplicity.Typing

/-- How far the walk has come with a class. -/
inductive Mark where
  | unvisited
  /-- It has been entered and not left. -/
  | inProgress
  | done (ty : Ty)

namespace Mark

instance : Inhabited Mark :=
  ⟨.unvisited⟩

/-- The type of a class, if it is known, and otherwise the unit type. -/
def ty : Mark → Ty
  | .done ty => ty
  | _ => .unit

end Mark

namespace Classes

variable (classes : Classes)

/-- The type of the class of a variable as far as the marks know it. -/
def typeAt (marks : Array Mark) (var : Var) : Ty :=
  (marks.getD (classes.root var) .unvisited).ty

/-- The type that a class has, when the types of its parts are known. -/
def typeOfBound (marks : Array Mark) : Bound → Ty
  | .free | .unit => .unit
  | .sum left right => .sum (classes.typeAt marks left) (classes.typeAt marks right)
  | .prod left right => .prod (classes.typeAt marks left) (classes.typeAt marks right)

/-- Finds the types of all classes that the visits lead to; `node` is blamed for a type that
contains itself. -/
def walk (node : Nat) : (fuel : Nat) → List Visit → Array Mark → Except TypeError (Array Mark)
  | 0, _, marks => .ok marks
  | _ + 1, [], marks => .ok marks
  | fuel + 1, .leave var :: rest, marks =>
      let ty := classes.typeOfBound marks (classes.boundOf var)
      walk node fuel rest (marks.setIfInBounds var (.done ty))
  | fuel + 1, .enter var :: rest, marks =>
      match marks.getD var .unvisited with
      | .done _ => walk node fuel rest marks
      | .inProgress => .error (.occursCheck node)
      | .unvisited =>
          let parts := (classes.boundOf var).parts.map fun part => .enter (classes.root part)
          walk node fuel (parts ++ .leave var :: rest) (marks.setIfInBounds var .inProgress)

/-- The type of a variable, and the marks of all classes walked for it. -/
def resolve (marks : Array Mark) (var : Var) (node : Nat) : Except TypeError (Ty × Array Mark) := do
  let root := classes.root var
  let marks ← classes.walk node (3 * classes.size + 1) [.enter root] marks
  return ((marks.getD root .unvisited).ty, marks)

end Classes

end Simplicity.Typing
