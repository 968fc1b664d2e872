import Simplicity.Typing.Constraint
import Simplicity.Typing.Solution

/-!
# Type inference

The nodes of a list are given the least types that their combinators admit: the last node, which
is the root, has type `1 ⊢ 1`, and a type of which nothing is known is the unit type. A hidden
node has no type.

All constraints are imposed in the order of the nodes before any type is read off. A failure to
impose one is blamed on the node whose rule it belongs to, and a type that contains itself on the
first node that has such a type below one of its own.
-/

namespace Simplicity

namespace Typing

/-- Gives every node its variables and imposes its typing rule. -/
def constrainAll : List Node → Array Ends → Solver → Except TypeError (Array Ends × Solver)
  | [], ends, solver => .ok (ends, solver)
  | node :: rest, ends, solver => do
      let (source, solver) ← Solve.fresh solver
      let (target, solver) ← Solve.fresh solver
      let index := ends.size
      let ends := ends.push ⟨source, target⟩
      let children := node.map fun child => ends.getD child default
      let ((), solver) ← Solve.constrain index ⟨source, target⟩ children solver
      constrainAll rest ends solver

/-- Makes the source and the target of the last node the unit type. -/
def constrainRoot (ends : Array Ends) : Solve Unit :=
  match ends.back? with
  | none => return ()
  | some root => do
      Solve.bind root.source .unit (ends.size - 1)
      Solve.bind root.target .unit (ends.size - 1)

/-- Reads off the types of nodes, the first of which stands at the end of the arrows so far. -/
def resolveAll (classes : Classes) :
    List (Node × Ends) → Array Mark → Array (Option Arrow) →
      Except TypeError (Array (Option Arrow))
  | [], _, arrows => .ok arrows
  | (node, ends) :: rest, marks, arrows =>
      if node.isHidden then
        resolveAll classes rest marks (arrows.push none)
      else do
        let (source, marks) ← classes.resolve marks ends.source arrows.size
        let (target, marks) ← classes.resolve marks ends.target arrows.size
        resolveAll classes rest marks (arrows.push (some ⟨source, target⟩))

end Typing

open Typing in
/-- The types of a list of nodes whose last node is the root. -/
def inferArrows (nodes : Array Node) : Except TypeError (Array (Option Arrow)) := do
  let (ends, solver) ← constrainAll nodes.toList #[] ⟨.empty, none⟩
  let ((), solver) ← constrainRoot ends solver
  let marks := Array.replicate solver.classes.size .unvisited
  resolveAll solver.classes (nodes.toList.zip ends.toList) marks #[]

end Simplicity
