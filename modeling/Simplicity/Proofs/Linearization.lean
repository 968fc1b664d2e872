import Simplicity.Expression.Builder
import Simplicity.Proofs.Dag
import Simplicity.Proofs.Order
import Simplicity.Proofs.Visit

/-!
# Laying out nodes

The loop that lays out the nodes below a root keeps no marks. It gives a node its place when it leaves
it, and relinks it with the places that have been given by then. `linearize_spec` shows that it follows
the recursive walk: where the walk has left some nodes, the loop holds these nodes with references to
the places that they have in the end, since the children of a node have got theirs before it. If there is
no such walk, then the loop has come to a node that refers forward.

The nodes of a walk, with references to the places of their children, are a list of nodes of their
own. A walk through that list from its last node goes from place to place as the first walk went from
node to node, so the list is in canonical order.
-/

namespace Simplicity

namespace Builder

variable {nodes : Array Node} {placement : Placement}

/-- The place of a node in an order, or the node itself if it has none. -/
def placeIn (placement : Placement) (index : Nat) : Nat :=
  (placement.placeOf index).getD index

/-- The nodes of a walk in their order, with references to their places in it. -/
def relink (nodes : Array Node) (placement : Placement) : Array Node :=
  placement.order.map fun index => (nodes.getD index .unit).map (placeIn placement)

theorem placeIn_eq {index place : Nat} (isPlaced : placement.placeOf index = some place) :
    placeIn placement index = place := by
  rw [placeIn, isPlaced, Option.getD_some]

/-! ### The nodes of a walk -/

@[simp]
theorem size_relink (nodes : Array Node) (placement : Placement) :
    (relink nodes placement).size = placement.order.size :=
  Array.size_map

/-- At the place of a node stands that node, with references to the places of its children. -/
theorem getElem?_relink (coherent : placement.Coherent nodes) {index place : Nat} {node : Node}
    (isPlaced : placement.placeOf index = some place) (isNode : nodes[index]? = some node) :
    (relink nodes placement)[place]? = some (node.map (placeIn placement)) := by
  rw [relink, Array.getElem?_map, (coherent.placeOf_iff index place).mp isPlaced]
  simp [Array.getD_eq_getD_getElem?, isNode]

/-- Whatever stands at a place has been a node. -/
theorem exists_node_of_getElem?_relink (coherent : placement.Coherent nodes) {place : Nat}
    {node : Node} (isNode : (relink nodes placement)[place]? = some node) :
    ∃ index origin, placement.placeOf index = some place ∧ nodes[index]? = some origin ∧
      node = origin.map (placeIn placement) := by
  have inside : place < placement.order.size :=
    size_relink nodes placement ▸ (Array.getElem?_eq_some_iff.mp isNode).1
  have isPlaced := coherent.placeOf_getElem inside
  have isOrigin := Array.getElem?_eq_getElem (coherent.lt_size isPlaced)
  refine ⟨_, _, isPlaced, isOrigin, ?_⟩
  rw [getElem?_relink coherent isPlaced isOrigin] at isNode
  exact (Option.some.inj isNode).symm

theorem childrenFirst_relink (coherent : placement.Coherent nodes) :
    ChildrenFirst (relink nodes placement) := by
  intro place node isNode child member
  rcases exists_node_of_getElem?_relink coherent isNode with
    ⟨index, origin, isPlaced, isOrigin, rfl⟩
  rw [Combinator.children_map] at member
  rcases List.mem_map.mp member with ⟨reference, isReference, rfl⟩
  rcases coherent.children isPlaced isOrigin reference isReference with ⟨earlier, lt, isEarlier⟩
  rwa [placeIn_eq isEarlier]

theorem hiddenAt_relink (coherent : placement.Coherent nodes) {index place : Nat}
    (isPlaced : placement.placeOf index = some place) :
    hiddenAt (relink nodes placement) place = hiddenAt nodes index := by
  have isNode := Array.getElem?_eq_getElem (coherent.lt_size isPlaced)
  rw [hiddenAt, hiddenAt, getElem?_relink coherent isPlaced isNode, isNode]
  simp

/-- Nodes match the places that they are given. -/
theorem matching_relink (coherent : placement.Coherent nodes) :
    Matching nodes (relink nodes placement) fun index place =>
      placement.placeOf index = some place where
  inside := coherent.lt_size
  inside' isPlaced := size_relink nodes placement ▸ coherent.place_lt isPlaced
  children := by
    intro index place node node' isPlaced isNode isNode'
    rw [getElem?_relink coherent isPlaced isNode] at isNode'
    cases isNode'
    rw [Combinator.children_map, List.forall₂_map_right_iff, List.forall₂_same]
    intro child member
    rcases coherent.children isPlaced isNode child member with ⟨earlier, -, isEarlier⟩
    rw [placeIn_eq isEarlier, isEarlier]
  unique := by
    intro index place other otherPlace isPlaced isOtherPlaced
    constructor
    · rintro rfl
      rw [isPlaced] at isOtherPlaced
      exact Option.some.inj isOtherPlaced
    · rintro rfl
      rw [coherent.placeOf_iff] at isPlaced isOtherPlaced
      rw [isPlaced] at isOtherPlaced
      exact Option.some.inj isOtherPlaced

/-! ### The loop -/

section Loop

/-- The nodes that a walk has left so far, laid out. -/
def laidOut (nodes : Array Node) (placement : Placement) : Progress :=
  ⟨relink nodes placement, placement.place⟩

@[simp]
theorem placeOf_laidOut (index : Nat) :
    (laidOut nodes placement).placeOf index = placement.placeOf index :=
  rfl

theorem placeIn_put (inside : index < placement.place.size) (isNew : placement.placeOf index = none)
    {child : Nat} (isPlaced : placement.placeOf child ≠ none) :
    placeIn (placement.put index) child = placeIn placement child := by
  have different : child ≠ index := by
    rintro rfl
    exact isPlaced isNew
  rw [placeIn, Placement.placeOf_put inside, if_neg different, placeIn]

/-- What has been laid out before a node is left does not refer to that node, so it stays. -/
theorem append_laidOut (coherent : placement.Coherent nodes) {node : Node}
    (isNode : nodes[index]? = some node) (isNew : placement.placeOf index = none)
    (childrenPlaced : ∀ child ∈ node.children, placement.placeOf child ≠ none) :
    (laidOut nodes placement).append index node = laidOut nodes (placement.put index) := by
  have inside : index < placement.place.size := by
    rw [coherent.size_eq]
    exact (Array.getElem?_eq_some_iff.mp isNode).1
  have keeps : ∀ {other : Node}, (∀ child ∈ other.children, placement.placeOf child ≠ none) →
      other.map (placeIn (placement.put index)) = other.map (placeIn placement) := by
    intro other isPlaced
    apply Combinator.map_congr
    intro child member
    exact placeIn_put inside isNew (isPlaced child member)
  have sameBefore : placement.order.map (fun other =>
      (nodes.getD other .unit).map (placeIn (placement.put index))) = relink nodes placement := by
    apply Array.map_congr_left
    intro other member
    have isPlaced := coherent.placeOf_ne_none_iff.mpr (Array.mem_toList_iff.mpr member)
    rcases Option.ne_none_iff_exists'.mp isPlaced with ⟨place, isPlace⟩
    have isOther := Array.getElem?_eq_getElem (coherent.lt_size isPlace)
    rw [Array.getD_eq_getD_getElem?, isOther, Option.getD_some]
    apply keeps
    intro child isChild
    rcases coherent.children isPlace isOther child isChild with ⟨earlier, -, isEarlier⟩
    simp [isEarlier]
  have sameNode : (nodes.getD index .unit).map (placeIn (placement.put index)) =
      node.map (placeIn placement) := by
    rw [Array.getD_eq_getD_getElem?, isNode, Option.getD_some, keeps childrenPlaced]
  have sameOrder : relink nodes (placement.put index) =
      (relink nodes placement).push (node.map (placeIn placement)) := by
    rw [relink, Placement.order_put, Array.map_push, sameBefore, sameNode]
  simp only [Progress.append, laidOut, sameOrder, size_relink]
  rfl

section Steps

variable {progress : Progress} {node : Node}

/-- A node that has a place is passed over. -/
theorem visit_placed (isPlaced : progress.placeOf index ≠ none) :
    Progress.visit nodes (.enter index) progress = .ok ([], progress) := by
  rcases Option.ne_none_iff_exists'.mp isPlaced with ⟨place, isPlace⟩
  simp only [Progress.visit, isPlace]

theorem visit_leave (isNew : progress.placeOf index = none) (isNode : nodes[index]? = some node) :
    Progress.visit nodes (.leave index) progress = .ok ([], progress.append index node) := by
  simp only [Progress.visit, isNew, isNode]

theorem visit_enter (isNew : progress.placeOf index = none) (isNode : nodes[index]? = some node)
    (backward : forwardChild? node index = none) :
    Progress.visit nodes (.enter index) progress =
      .ok (node.children.map .enter ++ [.leave index], progress) := by
  simp only [Progress.visit, isNew, isNode, backward]

theorem visit_forward (isNew : progress.placeOf index = none) (isNode : nodes[index]? = some node)
    {child : Nat} (isForward : forwardChild? node index = some child) :
    Progress.visit nodes (.enter index) progress = .error (.forwardReference index child) := by
  simp only [Progress.visit, isNew, isNode, isForward]

end Steps

/-- The visits of some nodes come to a walk through these nodes, if there is one, and otherwise to a
node that refers forward. They cost one visit for each of the targets and at most three for each node
that is left, and if the walk fails then two more for each node that has been entered and not left. -/
inductive Walks (nodes : Array Node) (depth : Nat) (targets : List Nat) (start : Placement) : Prop where
  | passes {stop : Placement} {cost : Nat} (walks : PostOrder nodes targets start stop)
      (bound : cost + 3 * stop.unplaced ≤ targets.length + 3 * start.unplaced)
      (runs : Runs (Progress.visit nodes) cost (targets.map .enter) (laidOut nodes start)
        (goesOn (Progress.visit nodes) (laidOut nodes stop)))
  | refuses {target index child cost : Nat} (member : target ∈ targets)
      (refers : RefersForward nodes target index child)
      (bound : cost ≤ targets.length + 3 * start.unplaced + 2 * depth)
      (runs : Runs (Progress.visit nodes) cost (targets.map .enter) (laidOut nodes start)
        (failsWith (.forwardReference index child)))

namespace Walks

variable {depth : Nat} {start : Placement} {rest : List Nat}

theorem placed (isPlaced : start.placeOf index ≠ none) (walksRest : Walks nodes depth rest start) :
    Walks nodes depth (index :: rest) start := by
  have skips : Progress.visit nodes (.enter index) (laidOut nodes start) =
      .ok ([], laidOut nodes start) := visit_placed isPlaced
  cases walksRest with
  | passes walks bound runs =>
      refine .passes (.placed isPlaced walks) ?_ (runs.cons skips)
      rw [List.length_cons]
      omega
  | refuses member refers bound runs =>
      refine .refuses (List.mem_cons_of_mem _ member) refers ?_ (runs.cons skips)
      rw [List.length_cons]
      omega

theorem refersForward_of_forwardChild? {node : Node} {child : Nat}
    (isNode : nodes[index]? = some node) (isForward : forwardChild? node index = some child) :
    RefersForward nodes index index child where
  reached := .root
  isChild := ⟨node, isNode, by simpa using List.mem_of_find?_eq_some isForward⟩
  forward := by simpa using List.find?_some isForward

theorem lt_of_forwardChild? {node : Node} (backward : forwardChild? node index = none) :
    ∀ child ∈ node.children, child < index := by
  intro child member
  have notForward := List.find?_eq_none.mp backward child (List.mem_reverse.mpr member)
  simpa using notForward

/-- A node is left once its children have been, and what follows is visited after that. -/
theorem visit {node : Node} (coherent : start.Coherent nodes) (isNew : start.placeOf index = none)
    (isNode : nodes[index]? = some node)
    (walksChildren : (∀ child ∈ node.children, child < index) →
      Walks nodes depth node.children start)
    (walksRest : ∀ middle : Placement, middle.Coherent nodes → Walks nodes (depth + 1) rest middle) :
    Walks nodes (depth + 1) (index :: rest) start := by
  have inside := (Array.getElem?_eq_some_iff.mp isNode).1
  have isNew' : (laidOut nodes start).placeOf index = none := isNew
  have short := node.length_children_le
  cases found : forwardChild? node index with
  | some child =>
      refine .refuses List.mem_cons_self (refersForward_of_forwardChild? isNode found) ?_
        (.cons_of_fails (visit_forward isNew' isNode found))
      rw [List.length_cons]
      omega
  | none =>
      have earlier := lt_of_forwardChild? found
      have enters := visit_enter isNew' isNode found
      cases walksChildren earlier with
      | @refuses target other child cost member refers bound runs =>
          have refers' : RefersForward nodes index other child :=
            ⟨.trans (.child .root isNode member) refers.reached, refers.isChild, refers.forward⟩
          refine .refuses List.mem_cons_self refers' ?_ (.cons_append_of_fails enters runs)
          rw [List.length_cons]
          omega
      | @passes middle costChildren walks bound runs =>
          rcases walks.coherent coherent with ⟨coherentMiddle, -, childrenPlaced⟩
          have stillNew : middle.placeOf index = none :=
            (walks.placeOf_eq coherent.size_eq earlier).trans isNew
          have stillNew' : (laidOut nodes middle).placeOf index = none := stillNew
          have fewer := Placement.unplaced_put (coherentMiddle.size_eq ▸ inside) stillNew
          have leaves : Progress.visit nodes (.leave index) (laidOut nodes middle) =
              .ok ([], laidOut nodes (middle.put index)) := by
            rw [visit_leave stillNew' isNode,
              append_laidOut coherentMiddle isNode stillNew childrenPlaced]
          cases walksRest _ (coherentMiddle.put isNode stillNew childrenPlaced) with
          | passes walks' bound' runs' =>
              refine .passes (.visit isNew isNode earlier walks walks') ?_
                (.cons_append enters runs (.cons leaves runs'))
              rw [List.length_cons]
              omega
          | refuses member refers bound' runs' =>
              refine .refuses (List.mem_cons_of_mem _ member) refers ?_
                (.cons_append enters runs (.cons leaves runs'))
              rw [List.length_cons]
              omega

/-- The induction is on a bound of the targets: a node is entered only if its children are smaller. -/
theorem of_lt {bound : Nat} {targets : List Nat} (below : ∀ target ∈ targets, target < bound)
    (inside : bound ≤ nodes.size) (coherent : start.Coherent nodes) :
    Walks nodes bound targets start := by
  induction bound generalizing targets start with
  | zero =>
      rcases targets with _ | ⟨target, targets⟩
      · exact .passes .nil (by simp) .nil
      · exact absurd (below target List.mem_cons_self) (Nat.not_lt_zero _)
  | succ bound ih =>
      induction targets generalizing start with
      | nil => exact .passes .nil (by simp) .nil
      | cons target targets ihTargets =>
          rw [List.forall_mem_cons] at below
          by_cases isNew : start.placeOf target = none
          · have isNode := Array.getElem?_eq_getElem (Nat.lt_of_lt_of_le below.1 inside)
            apply visit coherent isNew isNode
            · intro earlier
              apply ih _ (by omega) coherent
              intro child member
              have := earlier child member
              omega
            · intro middle coherentMiddle
              exact ihTargets below.2 coherentMiddle
          · exact placed isNew (ihTargets below.2 coherent)

end Walks

/-- Laying out the nodes below a root comes to the recursive walk from it, and fails exactly if there is
none, at a node below the root that refers forward. -/
theorem linearize_spec {root : Nat} (inside : root < nodes.size) :
    (∃ placement, PostOrder nodes [root] (.start nodes.size) placement ∧
      linearize nodes root = .ok (relink nodes placement)) ∨
    ∃ index child, RefersForward nodes root index child ∧
      linearize nodes root = .error (.forwardReference index child) := by
  have below : ∀ target ∈ [root], target < nodes.size := by
    simpa using inside
  have begins : laidOut nodes (.start nodes.size) = .start nodes.size := by
    simp [laidOut, relink, Placement.start, Progress.start]
  cases Walks.of_lt below (Nat.le_refl _) (.start nodes) with
  | @passes stop cost walks bound runs =>
      rw [Placement.unplaced_start, List.length_singleton] at bound
      rw [begins] at runs
      rcases runs.exists_eq (show cost ≤ 5 * nodes.size + 1 by omega) with ⟨fuel, ran⟩
      refine .inl ⟨stop, walks, ?_⟩
      change walkFrom _ _ [.enter root] _ = _ at ran
      rw [linearize, ran, goesOn_nil]
      rfl
  | @refuses target index child cost member refers bound runs =>
      rw [Placement.unplaced_start, List.length_singleton] at bound
      rw [begins] at runs
      rcases runs.exists_eq (show cost ≤ 5 * nodes.size + 1 by omega) with ⟨fuel, ran⟩
      rw [List.mem_singleton] at member
      refine .inr ⟨index, child, member ▸ refers, ?_⟩
      change walkFrom _ _ [.enter root] _ = _ at ran
      rw [linearize, ran]
      rfl

/-- If the nodes below a root refer back, they are walked and laid out. -/
theorem exists_linearize {root : Nat} (backward : BackwardFrom nodes root) :
    ∃ placement, PostOrder nodes [root] (.start nodes.size) placement ∧
      linearize nodes root = .ok (relink nodes placement) := by
  rcases linearize_spec backward.inside with walked | ⟨index, child, refers, -⟩
  · exact walked
  · rcases refers.isChild with ⟨node, isNode, member⟩
    have earlier := backward.earlier refers.reached isNode child member
    exact absurd refers.forward (Nat.not_le_of_lt earlier)

end Loop

/-! ### The order of what is laid out -/

/-- What a walk leaves is in canonical order: the walk through the places passes them one after
another, since the walk through the nodes did. -/
theorem canonicalOrder_relink {root : Nat}
    (walks : PostOrder nodes [root] (.start nodes.size) placement) :
    canonicalOrder (relink nodes placement) ((relink nodes placement).size - 1) =
      List.range (relink nodes placement).size := by
  have coherent := (walks.coherent (.start nodes)).1
  have size_eq := size_relink nodes placement
  have positive := walks.order_pos
  have inside : (relink nodes placement).size - 1 < (relink nodes placement).size := by omega
  rcases exists_linearize ((childrenFirst_relink coherent).backwardFrom inside) with
    ⟨placement', walks', -⟩
  have matchedRoot : placement.placeOf root = some ((relink nodes placement).size - 1) := by
    rw [size_eq]
    exact walks.placeOf_root
  have orders := (walks.alike (matching_relink coherent) walks' (.cons matchedRoot .nil) .start
    (by simp [Placement.start]) (by simp [Placement.start])).orders
  rw [List.forall₂_iff_get] at orders
  simp only [Array.length_toList, List.get_eq_getElem, Array.getElem_toList] at orders
  rw [← walks'.canonicalOrder_eq]
  apply List.ext_getElem
  · rw [Array.length_toList, List.length_range, size_eq, orders.1]
  · intro place inside _
    have inside' : place < placement.order.size := by
      rw [Array.length_toList] at inside
      exact orders.1 ▸ inside
    have placed := orders.2 place inside' (by simpa using inside)
    rw [coherent.placeOf_getElem inside', Option.some.injEq] at placed
    rw [Array.getElem_toList, List.getElem_range]
    exact placed.symm

end Builder

end Simplicity
