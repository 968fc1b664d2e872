import Simplicity.Proofs.Expression.Covering

/-!
# Unsharing

A shared node has one type for all of its uses. Nodes that list it several times, once for each use
or for some of them, leave inference more freedom: the equations that sharing imposed are gone and no
new ones have come. So the nodes make an expression again. Its types can differ from the old ones far
from the node that was shared, but only by pruning, and it takes no more than the old one.
-/

namespace Simplicity

/-- The nodes below a root are those of an expression with less sharing: `origin` tells which node of
the expression each is a copy of. -/
structure Unsharing (expression : Expression) (nodes : Array Node) (root : Nat)
    (origin : Nat → Nat) : Prop where
  backward : BackwardFrom nodes root
  root_eq : origin root = expression.root
  node_eq : ∀ {index : Nat} {node : Node}, Reaches nodes root index → nodes[index]? = some node →
    expression.node? (origin index) = some (node.map origin)

namespace Unsharing

variable {expression : Expression} {nodes : Array Node} {root : Nat} {origin : Nat → Nat}
  {index : Nat} {placement : Placement}

theorem exists_node (unsharing : Unsharing expression nodes root origin)
    (reached : Reaches nodes root index) : ∃ node, nodes[index]? = some node := by
  have inside : index < nodes.size := by
    induction reached with
    | root => exact unsharing.backward.inside
    | child reached isNode member ih =>
        exact Nat.lt_trans (unsharing.backward.earlier reached isNode _ member) ih
  exact ⟨_, Array.getElem?_eq_getElem inside⟩

theorem hiddenAt_eq (unsharing : Unsharing expression nodes root origin)
    (reached : Reaches nodes root index) :
    hiddenAt nodes index = hiddenAt expression.nodes (origin index) := by
  rcases unsharing.exists_node reached with ⟨node, isNode⟩
  have wasNode : expression.nodes[origin index]? = some (node.map origin) :=
    unsharing.node_eq reached isNode
  rw [Typing.hiddenAt_eq isNode, Typing.hiddenAt_eq wasNode, Combinator.isHidden_map]

/-- Hidden nodes stand below assertions only, as in the expression. -/
theorem settled (unsharing : Unsharing expression nodes root origin) {node : Node}
    (reached : Reaches nodes root index) (isNode : nodes[index]? = some node) :
    node.settled (hiddenAt nodes) = true := by
  rcases Array.getElem?_eq_some_iff.mp (unsharing.node_eq reached isNode) with ⟨inside, same⟩
  have settled := expression.dag.settled (origin index) inside
  change expression.dag.nodes[origin index] = _ at same
  rw [same, Combinator.settled_map] at settled
  rw [← settled]
  apply Combinator.settled_congr
  intro child member
  exact unsharing.hiddenAt_eq (.child reached isNode member)

theorem covering (unsharing : Unsharing expression nodes root origin)
    (layout : Builder.Layout nodes root placement) :
    expression.Covering (Builder.relink nodes placement) (Builder.sourceAt origin placement) := by
  have coherent := layout.coherent
  refine ⟨layout.size_pos, ?_, ?_⟩
  · rw [Builder.size_relink, Builder.sourceAt_eq coherent layout.root_last,
      unsharing.root_eq]
  · intro place node isNode
    rcases Builder.exists_node_of_getElem?_relink coherent isNode with
      ⟨index, original, isPlaced, isOriginal, rfl⟩
    apply Expression.StandsFor.copy
    rw [Builder.sourceAt_eq coherent isPlaced, Builder.map_sourceAt coherent isPlaced isOriginal]
    exact unsharing.node_eq (layout.reaches_iff.mp ⟨place, isPlaced⟩) isOriginal

/-- An expression can be unshared. The result has the same commitment root, the types of its nodes are
below those of the nodes that they are copies of, and it takes no more. -/
theorem exists_unshared (unsharing : Unsharing expression nodes root origin) :
    ∃ result rename, Builder.finish ⟨nodes⟩ root = .ok result ∧
      Isomorphism nodes result.nodes root result.root rename ∧
      result.commitmentRoot = expression.commitmentRoot ∧
      (∀ index, Reaches nodes root index → hiddenAt nodes index = false →
        ∃ arrow other, result.arrow? (rename index) = some arrow ∧
          expression.arrow? (origin index) = some other ∧ arrow.Below other) ∧
      ∃ bounds bounds', expression.bounds = .ok bounds ∧ result.bounds = .ok bounds' ∧
        bounds'.Le bounds := by
  rcases Builder.exists_layout unsharing.backward with ⟨placement, layout⟩
  have coherent := layout.coherent
  have visible : hiddenAt nodes root = false := by
    rw [unsharing.hiddenAt_eq .root, unsharing.root_eq]
    exact expression.visible
  rcases layout.exists_finish unsharing.settled visible with
    ⟨dag, laidOut, -, rootVisible, finishes⟩
  have covering := unsharing.covering layout
  rw [← laidOut] at covering
  rcases covering.exists_wellTyped rootVisible with ⟨typing, typed, -⟩
  rcases finishes typing typed with ⟨result, finished, rfl⟩
  refine ⟨result, Builder.placeIn placement, finished, layout.isomorphism finished,
    covering.commitmentRoot_eq, ?_, covering.exists_bounds_le⟩
  intro index reached visible
  have isPlaced := layout.exists_place reached
  rcases unsharing.exists_node reached with ⟨node, isNode⟩
  have isPlacedNode : result.node? (Builder.placeIn placement index) =
      some (node.map (Builder.placeIn placement)) := by
    rw [Expression.node?, Expression.nodes, laidOut]
    exact Builder.getElem?_relink coherent isPlaced isNode
  rw [Typing.hiddenAt_eq isNode, ← Combinator.isHidden_map (Builder.placeIn placement)] at visible
  rcases Expression.exists_arrow? isPlacedNode visible with ⟨arrow, found⟩
  rcases covering.below found with ⟨other, foundOther, below⟩
  rw [Builder.sourceAt_eq coherent isPlaced] at foundOther
  exact ⟨arrow, other, found, foundOther, below⟩

/-- Two witnesses of which only the first is looked at. -/
def twoWitnesses : Builder :=
  ⟨#[.witness, .witness, .pair 0 1, .unit, .case 3 3, .take 4, .comp 2 5]⟩

/-- A witness that is used twice but looked at once need not be shared. Its second copy is given the
type `1`, so there is less to copy. -/
theorem exists_unshared_twoWitnesses : ∃ expression result,
    Expression.ofNodes #[.witness, .pair 0 0, .unit, .case 2 2, .take 3, .comp 1 4] =
        .ok expression ∧
      Unsharing expression twoWitnesses.nodes 6 (· - 1) ∧
      twoWitnesses.finish 6 = .ok result ∧
      result.commitmentRoot = expression.commitmentRoot ∧
      expression.bounds = .ok ⟨⟨704⟩, 2, 1⟩ ∧ result.bounds = .ok ⟨⟨702⟩, 1, 1⟩ := by
  let expression : Expression :=
    ⟨⟨#[.witness, .pair 0 0, .unit, .case 2 2, .take 3, .comp 1 4], by decide, by decide⟩,
      #[some ⟨.unit, .prod .bit .unit⟩,
        some ⟨.unit, .prod (.prod .bit .unit) (.prod .bit .unit)⟩,
        some ⟨.prod .unit .unit, .unit⟩, some ⟨.prod .bit .unit, .unit⟩,
        some ⟨.prod (.prod .bit .unit) (.prod .bit .unit), .unit⟩, some ⟨.unit, .unit⟩],
      by decide, by decide, by decide +kernel, rfl⟩
  have earlier : ∀ index (inside : index < twoWitnesses.nodes.size),
      ∀ child ∈ (twoWitnesses.nodes[index]).children, child < index := by
    decide
  have copies : ∀ index (inside : index < twoWitnesses.nodes.size),
      expression.node? (index - 1) = some ((twoWitnesses.nodes[index]).map (· - 1)) := by
    decide
  have unsharing : Unsharing expression twoWitnesses.nodes 6 (· - 1) := by
    refine ⟨⟨by decide, ?_⟩, rfl, ?_⟩
    · intro index node _ isNode
      rcases Array.getElem?_eq_some_iff.mp isNode with ⟨inside, rfl⟩
      exact earlier index inside
    · intro index node _ isNode
      rcases Array.getElem?_eq_some_iff.mp isNode with ⟨inside, rfl⟩
      exact copies index inside
  have bounds : expression.bounds = .ok ⟨⟨704⟩, 2, 1⟩ := by decide +kernel
  rcases unsharing.exists_unshared with ⟨result, -, finished, -, same, -⟩
  have built : ∃ built, twoWitnesses.finish 6 = .ok built ∧ built.bounds = .ok ⟨⟨702⟩, 1, 1⟩ :=
    ⟨_, rfl, rfl⟩
  rcases built with ⟨built, finished', bounds'⟩
  cases (finished.symm.trans finished' : Except.ok result = .ok built)
  exact ⟨expression, result, rfl, unsharing, finished, same, bounds, bounds'⟩

end Unsharing

end Simplicity
