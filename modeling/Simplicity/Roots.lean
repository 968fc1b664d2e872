import Simplicity.Root.Annotated
import Simplicity.Root.Identity

/-!
# The three roots of an expression
-/

namespace Simplicity

structure Roots where
  /-- Depends on the combinators only. -/
  commitment : Digest
  /-- Depends also on the witness and on the types of the nodes. -/
  identity : Digest
  /-- Depends also on the types by which the combinators are instantiated. -/
  annotated : Digest
  deriving DecidableEq

/-- The roots of an expression with a witness. -/
def Roots.compute (expression : Expression) (witness : Witness) : Except Error Roots := do
  let identity ← expression.identityRoot witness
  let annotated ← expression.annotatedRoot witness
  return ⟨expression.commitmentRoot, identity, annotated⟩

end Simplicity
