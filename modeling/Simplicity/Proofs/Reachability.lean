import Simplicity.Dag

/-!
# Nodes below a root

The nodes of an expression have their children before them. Among the nodes of a builder that need only
be so for the root and the nodes that it leads to.
-/

namespace Simplicity

/-- The children of each node come before it. -/
def ChildrenFirst (nodes : Array Node) : Prop :=
  ∀ index (node : Node), nodes[index]? = some node → ∀ child ∈ node.children, child < index

theorem Dag.childrenFirst (dag : Dag) : ChildrenFirst dag.nodes := by
  intro index node isNode child member
  rcases Array.getElem?_eq_some_iff.mp isNode with ⟨inside, rfl⟩
  exact dag.backward index inside child member

/-- The root and the nodes that it leads to. -/
inductive Reaches (nodes : Array Node) (root : Nat) : Nat → Prop where
  | root : Reaches nodes root root
  | child {index child : Nat} {node : Node} (reached : Reaches nodes root index)
      (isNode : nodes[index]? = some node) (member : child ∈ node.children) :
      Reaches nodes root child

theorem Reaches.trans {nodes : Array Node} {root middle index : Nat}
    (first : Reaches nodes root middle) (second : Reaches nodes middle index) :
    Reaches nodes root index := by
  induction second with
  | root => exact first
  | child _ isNode member ih => exact .child ih isNode member

/-- There is a root, and the nodes that it leads to have their children before them. -/
structure BackwardFrom (nodes : Array Node) (root : Nat) : Prop where
  inside : root < nodes.size
  earlier : ∀ {index : Nat} {node : Node}, Reaches nodes root index → nodes[index]? = some node →
    ∀ child ∈ node.children, child < index

theorem ChildrenFirst.backwardFrom {nodes : Array Node} (childrenFirst : ChildrenFirst nodes)
    {root : Nat} (inside : root < nodes.size) : BackwardFrom nodes root :=
  ⟨inside, fun _ => childrenFirst _ _⟩

/-- A node at which a walk from a root cannot go on. -/
structure RefersForward (nodes : Array Node) (root index child : Nat) : Prop where
  reached : Reaches nodes root index
  isChild : ∃ node, nodes[index]? = some node ∧ child ∈ node.children
  forward : index ≤ child

end Simplicity
