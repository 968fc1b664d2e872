import Simplicity.Bounds
import Simplicity.Expression.Encoding
import Simplicity.Roots
import Std.Data.TreeMap

/-!
# Programs

A program is an expression with a witness that has passed every check: no two of its nodes could
have been one, and it costs no more than the budget. The roots and the bounds that are found on
the way are kept.
-/

namespace Simplicity

/-- The nodes met so far, by the numbers of their identity roots. -/
structure SeenNodes where
  visible : Std.TreeMap Nat Nat
  hidden : Std.TreeMap Nat Nat

namespace SeenNodes

def empty : SeenNodes :=
  ⟨∅, ∅⟩

/-- Meets the node at an index, which fails if a node of its kind had the same identity root. -/
def meet (seen : SeenNodes) (index : Nat) (hidden : Bool) (root : Digest) :
    Except Error SeenNodes :=
  let key := root.toNat
  if hidden then
    match seen.hidden[key]? with
    | some first => .error (.sharingNotMaximal first index)
    | none => .ok { seen with hidden := seen.hidden.insert key index }
  else
    match seen.visible[key]? with
    | some first => .error (.sharingNotMaximal first index)
    | none => .ok { seen with visible := seen.visible.insert key index }

end SeenNodes

/-- Fails at the first node that repeats an earlier one of its kind. -/
def checkSharing (nodes : List Node) (roots : List Digest) : Except Error Unit := do
  let _ ← (nodes.zip roots).zipIdx.foldlM
    (fun seen ((node, root), index) => SeenNodes.meet seen index node.isHidden root)
    SeenNodes.empty
  return ()

/-- An expression with a witness that has passed every check. -/
structure Program where
  expression : Expression
  witness : Witness
  roots : Roots
  bounds : Bounds

namespace Program

/-- Fails if the cost is above the budget. -/
def checkBudget (limits : Limits) (cost : Cost) : Except Error Unit :=
  match limits.costBudget with
  | none => .ok ()
  | some budget =>
      if budget < cost.milli then .error (.costExceeded cost.milli budget) else .ok ()

/-- Checks an expression with a witness. -/
def analyse (expression : Expression) (witness : Witness) (limits : Limits) :
    Except Error Program := do
  limits.check
  let identityRoots ← expression.identityRoots witness
  checkSharing expression.nodes.toList identityRoots.toList
  let bounds ← expression.bounds
  checkBudget limits bounds.cost
  let annotated ← expression.annotatedRoot witness
  let roots : Roots :=
    { commitment := expression.commitmentRoot
      identity := identityRoots.get expression.last
      annotated := annotated }
  return ⟨expression, witness, roots, bounds⟩

/-- Decodes and checks the bytes of a program and of its witness. -/
def decode (program witness : ByteArray) (limits : Limits) : Except Error Program := do
  let expression ← Expression.decode program limits
  let witness ← Witness.decode witness expression limits
  analyse expression witness limits

/-- The bytes of a program and of its witness. -/
def encode (program : Program) : Except StreamError (ByteArray × ByteArray) := do
  let bytes ← program.expression.encode
  return (bytes, program.witness.encode)

end Program

structure Report where
  roots : Roots
  cost : Cost
  /-- The cost in whole weight units, rounded up. -/
  weight : Nat
  /-- The cells beyond those of the input and output. -/
  cells : Nat
  /-- The frames beyond those of the input and output. -/
  frames : Nat
  nodes : Nat
  witnessNodes : Nat
  witnessBits : Nat
  deriving DecidableEq

def Program.report (program : Program) : Report where
  roots := program.roots
  cost := program.bounds.cost
  weight := program.bounds.cost.weight
  cells := program.bounds.cells
  frames := program.bounds.frames
  nodes := program.expression.size
  witnessNodes := program.expression.witnessNodes.length
  witnessBits := program.witness.bitLength

end Simplicity
