import Simplicity.Proofs.Expression.Covering

/-!
# Replacing a part of an expression

A part of an expression can be replaced by another one: the nodes around it stay, except that what
referred to the part refers to the other one. Every rule for costs only adds numbers and takes maxima,
so one might expect that the whole costs no less if the new part costs no less than the old one. It
does as long as the two parts have the same type: then the old part fits in the new surroundings, and
since inferred types are least, those around the new part are not below those around the old one.

Without that the cost can go down. The types are inferred afresh, and if the old part looked at its
input and the new one does not, then there is less to copy on the way to it.
-/

namespace Simplicity

/-- The root leads to the node without going through `old`, which may be that node. -/
inductive Expression.Around (expression : Expression) (old : Nat) : Nat → Prop where
  | root : Around expression old expression.root
  | child {index child : Nat} {node : Node} (around : Around expression old index)
      (elsewhere : index ≠ old) (isNode : expression.node? index = some node)
      (member : child ∈ node.children) : Around expression old child

/-- The second expression is the first one with `new` in the place of `old`; `place` tells where the
nodes around it are. -/
structure Replaces (expression result : Expression) (old new : Nat) (place : Nat → Nat) : Prop where
  root_eq : place expression.root = result.root
  old_eq : place old = new
  node_eq : ∀ {index : Nat} {node : Node}, expression.Around old index → index ≠ old →
    expression.node? index = some node → result.node? (place index) = some (node.map place)

namespace Replaces

variable {expression result : Expression} {old new : Nat} {place : Nat → Nat} {index : Nat}
  {node : Node}

theorem around_or_reaches (isNode : expression.node? index = some node) :
    expression.Around old index ∨ Reaches expression.nodes old index := by
  have reached := expression.reaches_iff.mpr (Array.getElem?_eq_some_iff.mp isNode).1
  clear isNode
  induction reached with
  | root => exact .inl .root
  | @child index _ _ _ isNode member ih =>
      rcases ih with around | below
      · by_cases here : index = old
        · subst here
          exact .inr (.child .root isNode member)
        · exact .inl (.child around here isNode member)
      · exact .inr (.child below isNode member)

/-- The types of the old part as it was, and of what is around it as it is now. -/
noncomputable def fittedArrow (expression result : Expression) (old : Nat) (place : Nat → Nat)
    (index : Nat) : Option Arrow :=
  open Classical in
  if Reaches expression.nodes old index then expression.arrow? index
  else result.arrow? (place index)

theorem fittedArrow_of_reaches (below : Reaches expression.nodes old index) :
    fittedArrow expression result old place index = expression.arrow? index :=
  if_pos below

/-- The nodes at which the old part meets what is around it have the types that they had. -/
def KeepsTypes (expression result : Expression) (old : Nat) (place : Nat → Nat) : Prop :=
  ∀ index, expression.Around old index → Reaches expression.nodes old index →
    result.arrow? (place index) = expression.arrow? index

theorem fittedArrow_of_around (keepsTypes : KeepsTypes expression result old place)
    (around : expression.Around old index) :
    fittedArrow expression result old place index = result.arrow? (place index) := by
  rw [fittedArrow]
  split
  case isTrue below => exact (keepsTypes index around below).symm
  case isFalse => rfl

theorem exists_fittedArrow (replaces : Replaces expression result old new place)
    (keepsTypes : KeepsTypes expression result old place)
    (isNode : expression.node? index = some node) (visible : node.isHidden = false) :
    ∃ arrow, fittedArrow expression result old place index = some arrow := by
  by_cases below : Reaches expression.nodes old index
  · rw [fittedArrow_of_reaches below]
    exact Expression.exists_arrow? isNode visible
  · have around := (around_or_reaches isNode).resolve_right below
    have elsewhere : index ≠ old := by
      rintro rfl
      exact below .root
    rw [fittedArrow_of_around keepsTypes around]
    exact Expression.exists_arrow? (replaces.node_eq around elsewhere isNode) (by simpa using visible)

/-- The old part fits in its new surroundings. -/
theorem hasType_fittedArrow (replaces : Replaces expression result old new place)
    (keepsTypes : KeepsTypes expression result old place) {arrow : Arrow}
    (isNode : expression.node? index = some node)
    (typed : fittedArrow expression result old place index = some arrow) :
    (node.map (fittedArrow expression result old place)).HasType arrow := by
  by_cases below : Reaches expression.nodes old index
  · rw [fittedArrow_of_reaches below] at typed
    rw [Combinator.map_congr fun child member =>
      fittedArrow_of_reaches (below.child isNode member)]
    exact Expression.hasType isNode typed
  · have around := (around_or_reaches isNode).resolve_right below
    have elsewhere : index ≠ old := by
      rintro rfl
      exact below .root
    rw [fittedArrow_of_around keepsTypes around] at typed
    rw [Combinator.map_congr fun child member =>
      fittedArrow_of_around keepsTypes (around.child elsewhere isNode member)]
    have typedThere := Expression.hasType (replaces.node_eq around elsewhere isNode) typed
    rwa [Combinator.map_map] at typedThere

theorem fittedArrow_root (replaces : Replaces expression result old new place)
    (keepsTypes : KeepsTypes expression result old place) :
    fittedArrow expression result old place expression.root = some ⟨.unit, .unit⟩ := by
  rw [fittedArrow_of_around keepsTypes .root, replaces.root_eq, result.arrow?_root]

/-- The types around the part do not go down. -/
theorem below (replaces : Replaces expression result old new place)
    (keepsTypes : KeepsTypes expression result old place) (around : expression.Around old index)
    {arrow : Arrow} (typed : expression.arrow? index = some arrow) :
    ∃ other, result.arrow? (place index) = some other ∧ arrow.Below other := by
  rcases Dag.exists_wellTyped expression.nonempty expression.visible
      (replaces.fittedArrow_root keepsTypes) (replaces.exists_fittedArrow keepsTypes)
      (fun isNode _ typed => replaces.hasType_fittedArrow keepsTypes isNode typed) with
    ⟨typing, wellTyped, fitted⟩
  rcases expression.leastTyping.below typing wellTyped index arrow typed with ⟨other, found, below⟩
  have isOther := fitted index other found
  rw [fittedArrow_of_around keepsTypes around] at isOther
  exact ⟨other, isOther, below⟩

variable {bounds : Vector Bounds expression.dag.nodes.size}
  {bounds' : Vector Bounds result.dag.nodes.size}

/-- No node around the part costs less than before. -/
theorem cost_le_of_around (replaces : Replaces expression result old new place)
    (keepsTypes : KeepsTypes expression result old place)
    (ran : expression.nodeBounds = .ok bounds) (ran' : result.nodeBounds = .ok bounds')
    (costlier : (Dag.resultAt bounds old).cost.milli ≤ (Dag.resultAt bounds' new).cost.milli)
    (around : expression.Around old index) (isNode : expression.node? index = some node) :
    (Dag.resultAt bounds index).cost.milli ≤ (Dag.resultAt bounds' (place index)).cost.milli := by
  induction index using Nat.strongRecOn generalizing node with
  | ind index ih =>
      by_cases here : index = old
      · rw [here, replaces.old_eq]
        exact costlier
      · have isNewNode := replaces.node_eq around here isNode
        apply Expression.boundsOf_cost_le _ _ (Expression.boundsOf_eq_ok ran' isNewNode)
          (Expression.boundsOf_eq_ok ran isNode)
        · intro other arrow' arrow part found found'
          have aroundOther : expression.Around old other := by
            rcases part with rfl | member
            · exact around
            · exact around.child here isNode member
          rw [Expression.arrow_eq_ok_iff] at found found'
          rcases replaces.below keepsTypes aroundOther found with ⟨_, again, below⟩
          rw [found'] at again
          cases again
          exact below
        · intro child member
          have earlier := expression.dag.childrenFirst index node isNode child member
          have inside := Nat.lt_trans earlier (Array.getElem?_eq_some_iff.mp isNode).1
          exact ih child earlier (around.child here isNode member) (Array.getElem?_eq_getElem inside)

/-- Replacing a part by one of the same type that costs no less does not lower the cost. -/
theorem cost_le (replaces : Replaces expression result old new place)
    (keepsTypes : KeepsTypes expression result old place)
    (ran : expression.nodeBounds = .ok bounds) (ran' : result.nodeBounds = .ok bounds')
    (costlier : (Dag.resultAt bounds old).cost.milli ≤ (Dag.resultAt bounds' new).cost.milli) :
    ∃ cost cost', expression.cost = .ok cost ∧ result.cost = .ok cost' ∧
      cost.milli ≤ cost'.milli := by
  have le := replaces.cost_le_of_around keepsTypes ran ran' costlier .root
    (Array.getElem?_eq_getElem expression.last.isLt)
  rw [replaces.root_eq] at le
  refine ⟨_, _, ?_, ?_, le⟩
  · rw [Expression.cost, Expression.bounds_eq_ok ran]
    rfl
  · rw [Expression.cost, Expression.bounds_eq_ok ran']
    rfl

/-- Where all nodes but one are kept, those around that one are. -/
theorem of_nodes (root_eq : place expression.root = result.root) (old_eq : place old = new)
    (kept : ∀ index (inside : index < expression.nodes.size), index ≠ old →
      result.node? (place index) = some ((expression.nodes[index]).map place)) :
    Replaces expression result old new place := by
  refine ⟨root_eq, old_eq, ?_⟩
  intro index node _ elsewhere isNode
  rcases Array.getElem?_eq_some_iff.mp isNode with ⟨inside, rfl⟩
  exact kept index inside elsewhere

/-- One branch of a choice gets longer and looks at no more than before. -/
theorem cost_le_longerBranch : ∃ expression result, ∃ place : Nat → Nat,
    ∃ (bounds : Vector Bounds expression.dag.nodes.size)
      (bounds' : Vector Bounds result.dag.nodes.size),
      Expression.ofNodes #[.witness, .unit, .case 1 1, .comp 0 2] = .ok expression ∧
      Expression.ofNodes #[.witness, .unit, .take 1, .unit, .case 2 3, .comp 0 4] = .ok result ∧
      Replaces expression result 2 4 place ∧ KeepsTypes expression result 2 place ∧
      expression.nodeBounds = .ok bounds ∧ result.nodeBounds = .ok bounds' ∧
      (Dag.resultAt bounds 2).cost.milli < (Dag.resultAt bounds' 4).cost.milli ∧
      ∃ cost cost', expression.cost = .ok cost ∧ result.cost = .ok cost' ∧
        cost.milli ≤ cost'.milli := by
  let looked : Ty := .prod .bit .unit
  let expression : Expression :=
    ⟨⟨#[.witness, .unit, .case 1 1, .comp 0 2], by decide, by decide⟩,
      #[some ⟨.unit, looked⟩, some ⟨.prod .unit .unit, .unit⟩, some ⟨looked, .unit⟩,
        some ⟨.unit, .unit⟩],
      by decide, by decide, by decide +kernel, rfl⟩
  let result : Expression :=
    ⟨⟨#[.witness, .unit, .take 1, .unit, .case 2 3, .comp 0 4], by decide, by decide⟩,
      #[some ⟨.unit, looked⟩, some ⟨.unit, .unit⟩, some ⟨.prod .unit .unit, .unit⟩,
        some ⟨.prod .unit .unit, .unit⟩, some ⟨looked, .unit⟩, some ⟨.unit, .unit⟩],
      by decide, by decide, by decide +kernel, rfl⟩
  let place : Nat → Nat := fun index => if index = 0 then 0 else index + 2
  have replaces : Replaces expression result 2 4 place := of_nodes rfl rfl (by decide)
  have keepsTypes : KeepsTypes expression result 2 place := by
    intro index _ _
    match index with
    | 0 | 1 | 2 | 3 => rfl
    | _ + 4 => rfl
  have ran : expression.nodeBounds =
      .ok #v[⟨⟨101⟩, 0, 0⟩, ⟨⟨100⟩, 0, 0⟩, ⟨⟨200⟩, 0, 0⟩, ⟨⟨402⟩, 1, 1⟩] := by
    decide +kernel
  have ran' : result.nodeBounds =
      .ok #v[⟨⟨101⟩, 0, 0⟩, ⟨⟨100⟩, 0, 0⟩, ⟨⟨200⟩, 0, 0⟩, ⟨⟨100⟩, 0, 0⟩, ⟨⟨300⟩, 0, 0⟩,
        ⟨⟨502⟩, 1, 1⟩] := by
    decide +kernel
  exact ⟨expression, result, place, _, _, rfl, rfl, replaces, keepsTypes, ran, ran', by decide,
    replaces.cost_le keepsTypes ran ran' (by decide)⟩

/-- A witness decides between the node `left` and node 4, which looks at nothing. Node 2 looks at a
bit and costs less than node 4. -/
def unevenChoice (left : Nat) : Builder :=
  ⟨#[.witness, .unit, .case 1 1, .take 1, .take 3, .case left 4, .comp 0 5]⟩

/-- The cheaper branch of a choice is replaced by the costlier one. That bit is not looked at any more
then, so the witness is narrower, and the cost goes down. -/
theorem exists_cost_lt_of_costlier : ∃ expression result, ∃ place : Nat → Nat,
    ∃ (bounds : Vector Bounds expression.dag.nodes.size)
      (bounds' : Vector Bounds result.dag.nodes.size),
      (unevenChoice 2).finish 6 = .ok expression ∧ (unevenChoice 4).finish 6 = .ok result ∧
      Replaces expression result 2 3 place ∧
      expression.nodeBounds = .ok bounds ∧ result.nodeBounds = .ok bounds' ∧
      (Dag.resultAt bounds 2).cost.milli < (Dag.resultAt bounds' 3).cost.milli ∧
      ∃ cost cost', expression.cost = .ok cost ∧ result.cost = .ok cost' ∧
        cost'.milli < cost.milli := by
  let empty : Ty := .prod .unit .unit
  let either : Ty := .prod (.sum .bit (.prod empty .unit)) .unit
  let neither : Ty := .prod (.sum empty empty) .unit
  let expression : Expression :=
    ⟨⟨(unevenChoice 2).nodes, by decide, by decide⟩,
      #[some ⟨.unit, either⟩, some ⟨empty, .unit⟩, some ⟨.prod .bit .unit, .unit⟩,
        some ⟨.prod empty .unit, .unit⟩, some ⟨.prod (.prod empty .unit) .unit, .unit⟩,
        some ⟨either, .unit⟩, some ⟨.unit, .unit⟩],
      by decide, by decide, by decide +kernel, rfl⟩
  let result : Expression :=
    ⟨⟨#[.witness, .unit, .take 1, .take 2, .case 3 3, .comp 0 4], by decide, by decide⟩,
      #[some ⟨.unit, neither⟩, some ⟨.unit, .unit⟩, some ⟨empty, .unit⟩,
        some ⟨.prod empty .unit, .unit⟩, some ⟨neither, .unit⟩, some ⟨.unit, .unit⟩],
      by decide, by decide, by decide +kernel, rfl⟩
  let place : Nat → Nat := fun index => if index = 2 then 3 else if index < 2 then index else index - 1
  have replaces : Replaces expression result 2 3 place := of_nodes rfl rfl (by decide)
  have ran : expression.nodeBounds =
      .ok #v[⟨⟨102⟩, 0, 0⟩, ⟨⟨100⟩, 0, 0⟩, ⟨⟨200⟩, 0, 0⟩, ⟨⟨200⟩, 0, 0⟩, ⟨⟨300⟩, 0, 0⟩,
        ⟨⟨400⟩, 0, 0⟩, ⟨⟨604⟩, 2, 1⟩] := by
    decide +kernel
  have ran' : result.nodeBounds =
      .ok #v[⟨⟨101⟩, 0, 0⟩, ⟨⟨100⟩, 0, 0⟩, ⟨⟨200⟩, 0, 0⟩, ⟨⟨300⟩, 0, 0⟩, ⟨⟨400⟩, 0, 0⟩,
        ⟨⟨602⟩, 1, 1⟩] := by
    decide +kernel
  have cost : expression.cost = .ok ⟨604⟩ := by
    rw [Expression.cost, Expression.bounds_eq_ok ran]
    rfl
  have cost' : result.cost = .ok ⟨602⟩ := by
    rw [Expression.cost, Expression.bounds_eq_ok ran']
    rfl
  have finished : (unevenChoice 2).finish 6 = .ok expression := Builder.finish_nodes expression
  have finished' : ∃ built, (unevenChoice 4).finish 6 = .ok built ∧
      built.nodes = #[.witness, .unit, .take 1, .take 2, .case 3 3, .comp 0 4] := ⟨_, rfl, rfl⟩
  rcases finished' with ⟨built, finished', listed⟩
  have same : built = result := Expression.ext_dag (Dag.ext_nodes listed)
  exact ⟨expression, result, place, _, _, finished, same ▸ finished', replaces, ran, ran', by decide, _, _,
    cost, cost', by decide⟩

end Replaces

end Simplicity
