import Simplicity.Root.Commitment
import Simplicity.Witness

/-!
# Identity roots

The identity root of a node tells two nodes apart that may not be shared. It is made in two
steps. The fingerprint of a node is made like a commitment root, except that a witness node
commits to its value and target type and a delegation to both of its children. The identity root
binds the fingerprint to the type of the node.
-/

namespace Simplicity

namespace Expression

variable (expression : Expression) (witness : Witness)

def fingerprints : Except Error (Vector Digest expression.dag.nodes.size) :=
  let labels := witness.spread expression
  expression.dag.scan fun index node =>
    match node.map Prod.snd with
    | .witness => do
        let bits ← witness.valueAt expression labels index
        let arrow ← expression.arrow index
        return RootState.identityWitness.absorb (Sha256.hash bits) arrow.target.root
    | .disconnect left right => .ok (RootState.identityDisconnect.absorb left right)
    | node => .ok node.commitment

/-- Binds a fingerprint to a type. -/
def bindArrow (fingerprint : Digest) (arrow : Arrow) : Digest :=
  (RootState.identity.absorbRight fingerprint).absorb arrow.source.root arrow.target.root

/-- The identity root of every node; for a hidden node, the root it carries. -/
def identityRoots : Except Error (Vector Digest expression.dag.nodes.size) := do
  witness.checkCount expression
  let fingerprints ← expression.fingerprints witness
  expression.dag.scan fun index node =>
    match node with
    | .hidden root => .ok root
    | _ => do return bindArrow (fingerprints.get index) (← expression.arrow index)

def identityRoot : Except Error Digest := do
  witness.checkCount expression
  let fingerprints ← expression.fingerprints witness
  let arrow ← expression.arrow expression.root
  return bindArrow (fingerprints.get expression.last) arrow

end Expression

end Simplicity
