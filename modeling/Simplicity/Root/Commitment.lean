import Simplicity.Expression.Basic
import Simplicity.Root.State

/-!
# Commitment roots

The commitment root of a node depends on the combinators below it and on nothing else: neither
types nor witness values enter it, a hidden node contributes the root it carries, an assertion
counts as the choice it was pruned from, and a delegation contributes only its left child.
-/

namespace Simplicity

/-- The commitment root of a combinator whose children have the given roots. -/
def Combinator.commitment : Combinator Digest → Digest
  | .iden => RootState.commitment .iden
  | .unit => RootState.commitment .unit
  | .injl child => (RootState.commitment .injl).absorbRight child
  | .injr child => (RootState.commitment .injr).absorbRight child
  | .take child => (RootState.commitment .take).absorbRight child
  | .drop child => (RootState.commitment .drop).absorbRight child
  | .comp left right => (RootState.commitment .comp).absorb left right
  | .case left right | .assertl left right | .assertr left right =>
      (RootState.commitment .case).absorb left right
  | .pair left right => (RootState.commitment .pair).absorb left right
  | .disconnect left _ => (RootState.commitment .disconnect).absorbRight left
  | .witness => RootState.commitment .witness
  | .hidden root => root

namespace Expression

def commitmentRoots (expression : Expression) : Vector Digest expression.dag.nodes.size :=
  expression.dag.fold Combinator.commitment

def commitmentRoot (expression : Expression) : Digest :=
  expression.commitmentRoots.get expression.last

end Expression

end Simplicity
