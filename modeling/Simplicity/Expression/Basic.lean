import Simplicity.Dag
import Simplicity.Order
import Simplicity.Typing.Inference

/-!
# Expressions

An expression is a list of nodes in canonical order, the root last, together with the types that
inference gives them. `Expression.ofNodes` is the only way to make one. It checks in this order
that

* children come before their parents and hidden nodes stand only below assertions,
* the root is not hidden,
* the nodes are in canonical order,
* the nodes have types, the root being `1 ⊢ 1`,

and what it has checked goes into the type.
-/

namespace Simplicity

structure Expression where
  /-- The nodes, children first. -/
  dag : Dag
  /-- The types of the nodes; a hidden node has none. -/
  arrows : Array (Option Arrow)
  /-- There is a root. -/
  nonempty : 0 < dag.size
  /-- The root is not hidden. -/
  visible : hiddenAt dag.nodes (dag.size - 1) = false
  /-- The walk from the root leaves the nodes in the order in which they are listed. -/
  ordered : checkOrder dag.nodes = .ok ()
  /-- The types are the inferred ones. -/
  typed : inferArrows dag.nodes = .ok arrows

namespace Expression

/-- Checks that listed nodes are in canonical order and have types. -/
def ofDag (dag : Dag) (nonempty : 0 < dag.size)
    (visible : hiddenAt dag.nodes (dag.size - 1) = false) : Except Error Expression :=
  match ordered : checkOrder dag.nodes with
  | .error error => .error error
  | .ok () =>
      match typed : inferArrows dag.nodes with
      | .error error => .error (.illTyped error)
      | .ok arrows => .ok ⟨dag, arrows, nonempty, visible, ordered, typed⟩

def ofNodes (nodes : Array Node) : Except Error Expression := do
  let dag ← Dag.ofNodes nodes
  if nonempty : 0 < dag.size then
    if visible : hiddenAt dag.nodes (dag.size - 1) = false then
      ofDag dag nonempty visible
    else
      throw .hiddenRoot
  else
    throw .emptyProgram

variable (expression : Expression)

def nodes : Array Node :=
  expression.dag.nodes

def size : Nat :=
  expression.dag.size

/-- The index of the root, which is the last node. -/
def root : Nat :=
  expression.size - 1

/-- The root among the nodes. -/
def last : Fin expression.dag.nodes.size :=
  ⟨expression.root, Nat.sub_lt expression.nonempty Nat.one_pos⟩

def node? (index : Nat) : Option Node :=
  expression.nodes[index]?

/-- The type of a node; hidden nodes, and indices past the root, have none. -/
def arrow? (index : Nat) : Option Arrow :=
  expression.arrows.getD index none

/-- The type of a node that needs one. -/
def arrow (index : Nat) : Except Error Arrow :=
  match expression.arrow? index with
  | some arrow => .ok arrow
  | none => .error (.untyped index)

/-- The indices of the witness nodes in order. -/
def witnessNodes : List Nat :=
  (List.range expression.size).filter fun index =>
    (expression.node? index).any Combinator.isWitness

end Expression

end Simplicity
