import Simplicity.Root.Commitment
import Simplicity.Witness

/-!
# Annotated roots

The annotated root of a node commits, besides the roots of its children, to the types by which
its combinator is instantiated, and at a witness node to the value.
-/

namespace Simplicity

/-- The sides of a type that must be a sum for the node at an index to be typed. -/
def Ty.sumOf (ty : Ty) (index : Nat) : Except Error (Ty × Ty) :=
  match ty.asSum with
  | some parts => .ok parts
  | none => .error (.illTyped (.unify index ty.shape .sum))

/-- The components of a type that must be a product for the node at an index to be typed. -/
def Ty.prodOf (ty : Ty) (index : Nat) : Except Error (Ty × Ty) :=
  match ty.asProd with
  | some parts => .ok parts
  | none => .error (.illTyped (.unify index ty.shape .prod))

namespace Expression

variable (expression : Expression) (witness : Witness)

/-- The annotated root of a node of the given type, whose children are given by their indices and
roots. -/
def annotate (labels : Array (Option BitString)) (index : Nat) (arrow : Arrow)
    (node : Combinator (Nat × Digest)) : Except Error Digest :=
  let state := RootState.annotated node.tag
  let source := arrow.source
  let target := arrow.target
  match node with
  | .iden | .unit => .ok (state.absorbRight source.root)
  | .injl child | .injr child => do
      let (left, right) ← target.sumOf index
      return (state.absorb source.root left.root).absorb right.root child.2
  | .take child | .drop child => do
      let (first, second) ← source.prodOf index
      return (state.absorb first.root second.root).absorb target.root child.2
  | .comp left right => do
      let middle ← expression.arrow left.1
      return ((state.absorbRight source.root).absorb middle.target.root target.root).absorb
        left.2 right.2
  | .pair left right => do
      let (first, second) ← target.prodOf index
      return ((state.absorbRight source.root).absorb first.root second.root).absorb
        left.2 right.2
  | .case left right | .assertl left right | .assertr left right => do
      let (choice, context) ← source.prodOf index
      let (leftSide, rightSide) ← choice.sumOf index
      return ((state.absorb leftSide.root rightSide.root).absorb
        context.root target.root).absorb left.2 right.2
  | .disconnect left right => do
      let leftArrow ← expression.arrow left.1
      let (first, _) ← leftArrow.target.prodOf index
      let rightArrow ← expression.arrow right.1
      return ((state.absorb source.root first.root).absorb
        rightArrow.source.root rightArrow.target.root).absorb left.2 right.2
  | .witness => do
      let bits ← witness.valueAt expression labels index
      return (state.absorbRight source.root).absorb target.root (Sha256.hash bits)
  | .hidden root => .ok root

/-- The annotated root of every node; for a hidden node, the root it carries. -/
def annotatedRoots : Except Error (Vector Digest expression.dag.nodes.size) := do
  witness.checkCount expression
  let labels := witness.spread expression
  expression.dag.scan fun index node =>
    match node with
    | .hidden root => .ok root
    | _ => do expression.annotate witness labels index (← expression.arrow index) node

def annotatedRoot : Except Error Digest := do
  let roots ← expression.annotatedRoots witness
  return roots.get expression.last

end Expression

end Simplicity
