import Simplicity.Expression.Basic

/-!
# Building expressions

A builder collects nodes in any order that has children before their parents, some of which may
turn out not to be needed. Nothing is shared that was not put in as shared. Finishing a builder
at a root takes the nodes that the root leads to, in canonical order.
-/

namespace Simplicity

/-- Nodes collected for an expression. -/
structure Builder where
  /-- The nodes in the order of their arrival. -/
  nodes : Array Node

namespace Builder

def empty : Builder :=
  ⟨#[]⟩

def size (builder : Builder) : Nat :=
  builder.nodes.size

/-- Adds a node and gives its index. -/
def push (builder : Builder) (node : Node) : Nat × Builder :=
  (builder.size, ⟨builder.nodes.push node⟩)

/-- Adds a choice whose right branch is pruned to its commitment root. -/
def assertl (builder : Builder) (left : Nat) (pruned : Digest) : Nat × Builder :=
  let (hidden, builder) := builder.push (.hidden pruned)
  builder.push (.assertl left hidden)

/-- Adds a choice whose left branch is pruned to its commitment root. -/
def assertr (builder : Builder) (pruned : Digest) (right : Nat) : Nat × Builder :=
  let (hidden, builder) := builder.push (.hidden pruned)
  builder.push (.assertr hidden right)

/-- How far the nodes below a root have been laid out. -/
structure Progress where
  /-- The nodes that have been left, in order, with references to the places of their children. -/
  ordered : Array Node
  /-- The place in that order of each node that has been left. -/
  remap : Array (Option Nat)

namespace Progress

def start (size : Nat) : Progress :=
  ⟨#[], Array.replicate size none⟩

/-- The place of a node, if it has been left. -/
def placeOf (progress : Progress) (index : Nat) : Option Nat :=
  progress.remap.getD index none

/-- Puts a node at the end. A child that has no place yet keeps its index. -/
def append (progress : Progress) (index : Nat) (node : Node) : Progress :=
  let relinked := node.map fun child => (progress.placeOf child).getD child
  ⟨progress.ordered.push relinked, progress.remap.setIfInBounds index (some progress.ordered.size)⟩

end Progress

/-- A child that does not come before its parent, the last one if there are several. -/
def forwardChild? (node : Node) (index : Nat) : Option Nat :=
  node.children.reverse.find? (index ≤ ·)

/-- Does one visit of a walk. Nothing but the places that nodes are given when they are left keeps the
walk from entering a node again. -/
def Progress.visit (nodes : Array Node) : Visit → Progress → Except Error (List Visit × Progress)
  | .leave index, progress =>
      match progress.placeOf index, nodes[index]? with
      | none, some node => .ok ([], progress.append index node)
      | _, _ => .ok ([], progress)
  | .enter index, progress =>
      match progress.placeOf index, nodes[index]? with
      | none, some node =>
          match forwardChild? node index with
          | some child => .error (.forwardReference index child)
          | none => .ok (node.children.map .enter ++ [.leave index], progress)
      | _, _ => .ok ([], progress)

/-- The nodes that a root leads to, and the root, in post-order. The walk looks at the children of
each node that it enters and fails at the first that does not come before its parent, so it cannot
return to a node that it has entered and not left, and `5 * size + 1` visits suffice. -/
def linearize (nodes : Array Node) (root : Nat) : Except Error (Array Node) := do
  let progress ← walkFrom (Progress.visit nodes) (5 * nodes.size + 1) [.enter root]
    (.start nodes.size)
  return progress.ordered

/-- The expression below a root. -/
def finish (builder : Builder) (root : Nat) : Except Error Expression := do
  if root < builder.size then
    let nodes ← linearize builder.nodes root
    Expression.ofNodes nodes
  else
    throw (.forwardReference builder.size root)

end Builder

end Simplicity
