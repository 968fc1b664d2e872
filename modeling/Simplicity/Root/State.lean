import Simplicity.Combinator
import Simplicity.Hash.Tagged

/-!
# Initial states of roots

The root of a node starts from a state that belongs to the kind of root and to the kind of
combinator, so that different combinators are told apart even when their children have the same
roots. The states are tabulated once.
-/

namespace Simplicity

namespace RootState

/-- The states of all combinators in a domain. -/
def table (domain : String) : Vector Digest 14 :=
  Combinator.Tag.all.map fun tag => domainState domain tag.name

def commitmentTable : Vector Digest 14 :=
  table "Commitment"

def annotatedTable : Vector Digest 14 :=
  table "Annotated"

/-- The state that a commitment root starts from. -/
def commitment (tag : Combinator.Tag) : Digest :=
  commitmentTable[tag.index]

/-- The state that an annotated root starts from. -/
def annotated (tag : Combinator.Tag) : Digest :=
  annotatedTable[tag.index]

/-- The state that the fingerprint of a witness node starts from. -/
def identityWitness : Digest :=
  domainState "Identity" "witness"

/-- The state that the fingerprint of a delegation starts from. -/
def identityDisconnect : Digest :=
  domainState "Identity" "disconnect"

/-- The state that binds a fingerprint to a type. -/
def identity : Digest :=
  taggedState (tagStart ++ "Identity").toUTF8

end RootState

end Simplicity
