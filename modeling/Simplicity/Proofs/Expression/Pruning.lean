import Simplicity.Proofs.Expression.Covering

/-!
# Pruning a choice

A branch of a choice that is never taken can be cut off: the choice becomes the assertion of the
other branch, and a hidden node with the commitment root of the branch takes its place. Nodes that
only the branch led to are dropped, and the others move up.

What is left is again an expression. `Cut.Survives` says where each of its nodes comes from, which
makes it a covering of what there was, and all else follows from that:

* the types that the nodes had are a typing of what is left, so the inferred types are below them;
* a node has the commitment root that it had, since the hidden node has the root of the branch;
* a node takes no more than it took, since the types are below and the hidden node takes nothing.
-/

namespace Simplicity

/-- Settled nodes that a root leads to are laid out as such, with the root last, and make an
expression if they have a typing. -/
theorem Builder.exists_finish {nodes : Array Node} {root : Nat}
    (childrenFirst : ChildrenFirst nodes)
    (settled : ∀ {index : Nat} {node : Node}, nodes[index]? = some node →
      node.settled (hiddenAt nodes) = true)
    (inside : root < nodes.size) (visible : hiddenAt nodes root = false) :
    ∃ placement, placement.Coherent nodes ∧
      placement.placeOf root = some (placement.order.size - 1) ∧
      ∃ dag : Dag, dag.nodes = relink nodes placement ∧ 0 < dag.size ∧
        hiddenAt dag.nodes (dag.size - 1) = false ∧
        ∀ typing, WellTyped dag.nodes typing → ∃ expression : Expression,
          finish ⟨nodes⟩ root = .ok expression ∧ expression.dag = dag := by
  rcases exists_layout (childrenFirst.backwardFrom inside) with ⟨placement, layout⟩
  exact ⟨placement, layout.coherent, layout.root_last,
    layout.exists_finish (fun _ isNode => settled isNode) visible⟩

/-- A choice in an expression and the branch of it that is kept. -/
structure Cut (expression : Expression) where
  index : Nat
  left : Nat
  right : Nat
  keep : Branch
  isChoice : expression.node? index = some (.case left right)

namespace Cut

variable {expression : Expression} (cut : Cut expression)

/-- The first node of the branch that is cut off. -/
def pruned : Nat :=
  cut.keep.pruned cut.left cut.right

/-- The node that takes the place of the branch. -/
def stump : Node :=
  .hidden (Dag.resultAt expression.commitmentRoots cut.pruned)

/-- The nodes of the expression, behind the hidden node, with the assertion in place of the choice. -/
def nodes : Array Node :=
  #[cut.stump] ++ expression.nodes.mapIdx fun index node =>
    if index = cut.index then cut.keep.assertion (cut.left + 1) (cut.right + 1) 0
    else node.map (· + 1)

/-- The expression that is left. -/
def prune : Except Error Expression :=
  Builder.finish ⟨cut.nodes⟩ (expression.root + 1)

/-- What stands at a place of a pruned list, where the nodes have been before: a node with the same
combinator, the assertion that the choice has become, or the hidden node. -/
inductive Survives (origin : Nat → Nat) (place : Nat) : Node → Prop where
  | kept {node : Node} (elsewhere : origin place ≠ cut.index)
      (isNode : expression.node? (origin place) = some (node.map origin)) :
      Survives origin place node
  | asserted {node : Node} (here : origin place = cut.index)
      (isAssertion : node.map origin = cut.keep.assertion cut.left cut.right cut.pruned) :
      Survives origin place node
  | stump (here : origin place = cut.pruned) : Survives origin place cut.stump

/-- The nodes are what is left of the expression; `origin` tells where they have been before. -/
structure Leaves (nodes : Array Node) (origin : Nat → Nat) : Prop where
  nonempty : 0 < nodes.size
  root : origin (nodes.size - 1) = expression.root
  survives : ∀ {place node}, nodes[place]? = some node → cut.Survives origin place node
  unique : ∀ {place place'}, place < nodes.size → place' < nodes.size →
    hiddenAt nodes place = false → hiddenAt nodes place' = false → origin place = origin place' →
      place = place'

variable {cut} {origin : Nat → Nat}

/-- What is left covers the expression. -/
theorem Leaves.covering {nodes : Array Node} (leaves : cut.Leaves nodes origin) :
    expression.Covering nodes origin := by
  refine ⟨leaves.nonempty, leaves.root, ?_⟩
  intro place node isNode
  cases leaves.survives isNode with
  | kept _ wasNode => exact .copy wasNode
  | asserted here isAssertion =>
      exact .assertion cut.keep (by rw [here, cut.isChoice]) isAssertion
  | stump here =>
      rw [stump, ← here]
      exact .stump

theorem Leaves.exists_wellTyped {dag : Dag} (leaves : cut.Leaves dag.nodes origin)
    (rootVisible : hiddenAt dag.nodes (dag.size - 1) = false) :
    ∃ typing, WellTyped dag.nodes typing ∧ ∀ place arrow, arrowAt typing place = some arrow →
      expression.arrow? (origin place) = some arrow :=
  leaves.covering.exists_wellTyped rootVisible

theorem Leaves.below {result : Expression} (leaves : cut.Leaves result.nodes origin) {place : Nat}
    {arrow : Arrow} (typed : result.arrow? place = some arrow) :
    ∃ other, expression.arrow? (origin place) = some other ∧ arrow.Below other :=
  leaves.covering.below typed

theorem Leaves.commitment_eq {result : Expression} (leaves : cut.Leaves result.nodes origin)
    {place : Nat} (inside : place < result.size) :
    Dag.resultAt result.commitmentRoots place =
      Dag.resultAt expression.commitmentRoots (origin place) :=
  leaves.covering.commitment_eq inside

theorem Leaves.bounds_le {result : Expression} (leaves : cut.Leaves result.nodes origin)
    {bounds : Vector Bounds expression.dag.nodes.size} {bounds' : Vector Bounds result.dag.nodes.size}
    (ran : expression.nodeBounds = .ok bounds) (ran' : result.nodeBounds = .ok bounds')
    {place : Nat} (inside : place < result.size) :
    (Dag.resultAt bounds' place).Le (Dag.resultAt bounds (origin place)) :=
  leaves.covering.bounds_le ran ran' inside

section Collected

variable (cut)

/-- The nodes that are collected, with their indices. -/
inductive Collected : Nat → Node → Prop where
  | stump : Collected 0 cut.stump
  | assertion :
      Collected (cut.index + 1) (cut.keep.assertion (cut.left + 1) (cut.right + 1) 0)
  | kept {index : Nat} {node : Node} (elsewhere : index ≠ cut.index)
      (isNode : expression.node? index = some node) : Collected (index + 1) (node.map (· + 1))

theorem getElem?_nodes_zero : cut.nodes[0]? = some cut.stump := by
  rw [nodes, Array.getElem?_append_left (by simp)]
  rfl

theorem getElem?_nodes_succ (index : Nat) :
    cut.nodes[index + 1]? = (expression.node? index).map fun node =>
      if index = cut.index then cut.keep.assertion (cut.left + 1) (cut.right + 1) 0
      else node.map (· + 1) := by
  rw [nodes, Array.getElem?_append_right (by simp)]
  simp [Array.getElem?_mapIdx, Expression.node?]

theorem size_nodes : cut.nodes.size = expression.size + 1 := by
  simp [nodes, Expression.size, Expression.nodes, Dag.size, Nat.add_comm]

variable {cut} {index : Nat} {node : Node}

theorem collected_of_getElem? (isNode : cut.nodes[index]? = some node) :
    cut.Collected index node := by
  cases index with
  | zero =>
      rw [getElem?_nodes_zero] at isNode
      cases isNode
      exact .stump
  | succ index =>
      rw [getElem?_nodes_succ, Option.map_eq_some_iff] at isNode
      rcases isNode with ⟨before, wasNode, rfl⟩
      split
      case isTrue here =>
        rw [here]
        exact .assertion
      case isFalse elsewhere => exact .kept elsewhere wasNode

theorem hiddenAt_nodes_zero : hiddenAt cut.nodes 0 = true := by
  rw [hiddenAt, getElem?_nodes_zero]
  rfl

theorem hiddenAt_nodes_succ : hiddenAt cut.nodes (index + 1) = hiddenAt expression.nodes index := by
  rw [hiddenAt, getElem?_nodes_succ, hiddenAt]
  by_cases here : index = cut.index
  · have isChoice : expression.nodes[cut.index]? = some (.case cut.left cut.right) := cut.isChoice
    simp only [here, if_true, Expression.node?, isChoice, Option.map_some]
    cases cut.keep <;> rfl
  · simp only [here, if_false, Expression.node?]
    cases expression.nodes[index]? <;> simp

theorem childrenFirst_nodes : ChildrenFirst cut.nodes := by
  intro index node isNode child member
  cases collected_of_getElem? isNode with
  | stump => cases member
  | assertion =>
      have earlier := expression.dag.childrenFirst cut.index _ cut.isChoice
      have left_lt := earlier cut.left (.head _)
      have right_lt := earlier cut.right (.tail _ (.head _))
      cases keep : cut.keep <;> simp [keep, Branch.assertion, Combinator.children] at member <;> omega
  | kept _ wasNode =>
      rw [Combinator.children_map] at member
      rcases List.mem_map.mp member with ⟨before, wasChild, rfl⟩
      exact Nat.succ_lt_succ (expression.dag.childrenFirst _ _ wasNode before wasChild)

theorem settled_nodes (isNode : cut.nodes[index]? = some node) :
    node.settled (hiddenAt cut.nodes) = true := by
  cases collected_of_getElem? isNode with
  | stump => rfl
  | assertion =>
      have settled :
          (Combinator.case cut.left cut.right).settled (hiddenAt expression.nodes) = true := by
        rcases Array.getElem?_eq_some_iff.mp cut.isChoice with ⟨inside, same⟩
        rw [← same]
        exact expression.dag.settled cut.index inside
      have leftVisible := Combinator.hidden_eq_false_of_settled settled rfl (.head _)
      have rightVisible := Combinator.hidden_eq_false_of_settled settled rfl (.tail _ (.head _))
      cases cut.keep <;>
        simp [Branch.assertion, Combinator.settled, hiddenAt_nodes_zero, hiddenAt_nodes_succ,
          leftVisible, rightVisible]
  | kept _ wasNode =>
      rcases Array.getElem?_eq_some_iff.mp wasNode with ⟨inside, rfl⟩
      rw [Combinator.settled_map]
      simp only [hiddenAt_nodes_succ]
      exact expression.dag.settled _ inside

end Collected

section Layout

variable (cut)

/-- The node that a collected node has been before. -/
def source : Nat → Nat
  | 0 => cut.pruned
  | index + 1 => index

/-- The node that has been given a place, as it has been before. -/
def originIn (placement : Placement) (place : Nat) : Nat :=
  cut.source (placement.order.getD place 0)

variable {cut} {placement : Placement}

theorem originIn_eq (coherent : placement.Coherent cut.nodes) {index place : Nat}
    (isPlaced : placement.placeOf index = some place) :
    cut.originIn placement place = cut.source index :=
  Builder.sourceAt_eq coherent isPlaced

theorem map_originIn (coherent : placement.Coherent cut.nodes) {index place : Nat} {node : Node}
    (isPlaced : placement.placeOf index = some place) (isNode : cut.nodes[index]? = some node) :
    (node.map (Builder.placeIn placement)).map (cut.originIn placement) = node.map cut.source :=
  Builder.map_sourceAt coherent isPlaced isNode

theorem survives_relink (coherent : placement.Coherent cut.nodes) {place : Nat} {node : Node}
    (isNode : (Builder.relink cut.nodes placement)[place]? = some node) :
    cut.Survives (cut.originIn placement) place node := by
  rcases Builder.exists_node_of_getElem?_relink coherent isNode with
    ⟨index, before, isPlaced, wasNode, rfl⟩
  have origin_eq := originIn_eq coherent isPlaced
  have before_eq := map_originIn coherent isPlaced wasNode
  cases collected_of_getElem? wasNode with
  | stump => exact .stump origin_eq
  | assertion => exact .asserted origin_eq (before_eq.trans (cut.keep.map_assertion _ _ _ _))
  | @kept index original elsewhere isOriginal =>
      refine .kept ?_ ?_
      · rw [origin_eq]
        exact elsewhere
      · rw [origin_eq, before_eq, Combinator.map_map]
        exact isOriginal.trans (congrArg some (Combinator.map_id original).symm)

theorem leaves_relink (coherent : placement.Coherent cut.nodes)
    (last : placement.placeOf (expression.root + 1) = some (placement.order.size - 1)) :
    cut.Leaves (Builder.relink cut.nodes placement) (cut.originIn placement) := by
  have size_eq := Builder.size_relink cut.nodes placement
  constructor
  case nonempty =>
    have := coherent.place_lt last
    omega
  case root =>
    rw [size_eq, originIn_eq coherent last]
    rfl
  case survives => exact survives_relink coherent
  case unique =>
    have visibleIndex : ∀ {place}, place < (Builder.relink cut.nodes placement).size →
        hiddenAt (Builder.relink cut.nodes placement) place = false →
          placement.placeOf (cut.originIn placement place + 1) = some place := by
      intro place inside visible
      have isPlaced := coherent.placeOf_getElem (size_eq ▸ inside)
      rw [Builder.hiddenAt_relink coherent isPlaced] at visible
      rw [originIn_eq coherent isPlaced]
      generalize placement.order[place] = index at isPlaced visible
      cases index with
      | zero =>
          rw [hiddenAt_nodes_zero] at visible
          cases visible
      | succ index => exact isPlaced
    intro place place' inside inside' visible visible' same
    have isPlaced := visibleIndex inside visible
    rw [same, visibleIndex inside' visible'] at isPlaced
    exact (Option.some.inj isPlaced).symm

end Layout

end Cut

/-- A choice can be pruned to either branch. What is left has the same commitment root, the types of
its nodes are below those that they had, and it takes no more. -/
theorem Cut.exists_prune {expression : Expression} (cut : Cut expression) :
    ∃ result, cut.prune = .ok result ∧
      result.commitmentRoot = expression.commitmentRoot ∧
      (∃ origin, cut.Leaves result.nodes origin ∧
        ∀ place arrow, result.arrow? place = some arrow →
          ∃ other, expression.arrow? (origin place) = some other ∧ arrow.Below other) ∧
      ∃ bounds bounds', expression.bounds = .ok bounds ∧ result.bounds = .ok bounds' ∧
        bounds'.Le bounds := by
  have rootVisible : hiddenAt cut.nodes (expression.root + 1) = false :=
    hiddenAt_nodes_succ.trans expression.visible
  have inside : expression.root + 1 < cut.nodes.size := by
    rw [size_nodes]
    exact Nat.succ_lt_succ expression.last.isLt
  rcases Builder.exists_finish childrenFirst_nodes settled_nodes inside rootVisible with
    ⟨placement, coherent, last, dag, laidOut, -, visible, finishes⟩
  have leaves := leaves_relink coherent last
  rw [← laidOut] at leaves
  rcases leaves.exists_wellTyped visible with ⟨typing, typed, -⟩
  rcases finishes typing typed with ⟨result, finished, rfl⟩
  have root_eq : cut.originIn placement result.root = expression.root := leaves.root
  have root_lt : result.root < result.size := result.last.isLt
  rcases expression.exists_nodeBounds with ⟨bounds, ran⟩
  rcases result.exists_nodeBounds with ⟨bounds', ran'⟩
  refine ⟨result, finished, ?_, ⟨cut.originIn placement, leaves, fun _ _ => leaves.below⟩, _, _,
    Expression.bounds_eq_ok ran, Expression.bounds_eq_ok ran', ?_⟩
  · rw [Expression.commitmentRoot_eq, Expression.commitmentRoot_eq,
      leaves.commitment_eq root_lt, root_eq]
  · rw [← root_eq]
    exact leaves.bounds_le ran ran' root_lt

/-- A choice between a node and itself can be pruned: the node stays for the branch that is kept. -/
theorem Cut.exists_prune_sharedBranch : ∃ expression result, ∃ cut : Cut expression,
    Expression.ofNodes #[.witness, .unit, .case 1 1, .comp 0 2] = .ok expression ∧
      cut.index = 2 ∧ cut.keep = .left ∧ cut.prune = .ok result ∧
      result.commitmentRoot = expression.commitmentRoot := by
  let expression : Expression :=
    ⟨⟨#[.witness, .unit, .case 1 1, .comp 0 2], by decide, by decide⟩, _, by decide, by decide,
      rfl, rfl⟩
  let cut : Cut expression := ⟨2, 1, 1, .left, rfl⟩
  rcases cut.exists_prune with ⟨result, pruned, same, -⟩
  exact ⟨expression, result, cut, rfl, rfl, rfl, pruned, same⟩

end Simplicity
