import Simplicity.Proofs.Typing.Inference

/-!
# The arrows of an expression

An expression carries the arrows that inference gave its nodes. They are the least typing of the
nodes, so every node that is not hidden has an arrow and the typing rules can be read off them.
-/

namespace Simplicity.Expression

variable (expression : Expression)

theorem leastTyping : LeastTyping expression.nodes expression.arrows := by
  rcases Typing.inferArrows_least expression.nonempty expression.visible with
    ⟨arrows, inferred, least⟩ | ⟨⟨error, failed⟩, -⟩
  · rw [expression.typed] at inferred
    cases inferred
    exact least
  · rw [expression.typed] at failed
    cases failed

theorem wellTyped : WellTyped expression.nodes expression.arrows :=
  expression.leastTyping.wellTyped

theorem arrow?_root : expression.arrow? expression.root = some ⟨.unit, .unit⟩ := by
  have last := expression.wellTyped.root_eq
  rw [Array.back?, expression.wellTyped.size_eq] at last
  rw [arrow?, Array.getD_eq_getD_getElem?]
  change expression.arrows[expression.root]? = _ at last
  rw [last, Option.getD_some]

variable {expression} {index : Nat} {node : Node} {arrow : Arrow}

theorem exists_arrow? (found : expression.node? index = some node)
    (visible : node.isHidden = false) : ∃ arrow, expression.arrow? index = some arrow :=
  Typing.exists_arrow_of_visible expression.wellTyped found visible

theorem hasType (found : expression.node? index = some node)
    (typed : expression.arrow? index = some arrow) : (node.map expression.arrow?).HasType arrow := by
  rcases Array.getElem?_eq_some_iff.mp found with ⟨inside, rfl⟩
  exact expression.wellTyped.rule index inside arrow typed

end Simplicity.Expression
