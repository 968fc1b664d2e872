import Simplicity.Ty.Basic

/-!
# Typing failures

Inference fails in two ways: two different type constructors would have to be the same, or a
type would have to contain itself. Types can be too large to print, so the first failure names
only the two constructors.
-/

namespace Simplicity

/-- Why a list of nodes has no types. -/
inductive TypeError where
  /-- A constraint of the node equates two different constructors. -/
  | unify (node : Nat) (left right : Ty.Shape)
  /-- A type of the node would contain itself. -/
  | occursCheck (node : Nat)
  deriving DecidableEq, Repr

def TypeError.message : TypeError → String
  | .unify node left right => s!"node {node}: cannot unify {left.name} with {right.name}"
  | .occursCheck node => s!"node {node}: infinite type"

end Simplicity
