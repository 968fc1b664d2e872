import Mathlib.Algebra.Ring.Nat
import Mathlib.Data.List.Forall2
import Simplicity.Proofs.Reachability

/-!
# Post-order

`PostOrder` says how a walk goes: a node that has a place is passed over, and any other node is given
the next place after the nodes below it. Every node that is given a place has its children before it,
so a walk never comes back to a node that it has entered and not left. The loops that check the order
of nodes and that lay out nodes both follow such a walk.

A walk from a root gives every node that it leaves one place, after the places of the children of
that node, and the root the last place. `canonicalOrder` computes the same order by recursion. Two walks
through different lists of nodes that start at matching nodes go on from matching nodes to matching
nodes, and leave their nodes in matching orders.
-/

namespace Simplicity

/-- How far a walk has come. -/
structure Placement where
  /-- The indices of the nodes left so far, in order. -/
  order : Array Nat
  /-- The place in that order of each node that has been left. -/
  place : Array (Option Nat)

namespace Placement

def start (size : Nat) : Placement :=
  ⟨#[], Array.replicate size none⟩

/-- The place of a node, if it has been left. -/
def placeOf (placement : Placement) (index : Nat) : Option Nat :=
  placement.place.getD index none

/-- Puts a node at the end of the order. -/
def put (placement : Placement) (index : Nat) : Placement :=
  ⟨placement.order.push index, placement.place.setIfInBounds index (some placement.order.size)⟩

end Placement

/-- Places the nodes below some nodes, and these, in post-order. -/
inductive PostOrder (nodes : Array Node) : List Nat → Placement → Placement → Prop where
  | nil {placement : Placement} : PostOrder nodes [] placement placement
  | placed {index : Nat} {rest : List Nat} {start stop : Placement}
      (isPlaced : start.placeOf index ≠ none) (walksRest : PostOrder nodes rest start stop) :
      PostOrder nodes (index :: rest) start stop
  | visit {index : Nat} {node : Node} {rest : List Nat} {start middle stop : Placement}
      (isNew : start.placeOf index = none) (isNode : nodes[index]? = some node)
      (earlier : ∀ child ∈ node.children, child < index)
      (walksChildren : PostOrder nodes node.children start middle)
      (walksRest : PostOrder nodes rest (middle.put index) stop) :
      PostOrder nodes (index :: rest) start stop

namespace Placement

variable {placement : Placement} {index : Nat}

@[simp]
theorem size_put (placement : Placement) (index : Nat) :
    (placement.put index).place.size = placement.place.size := by
  simp [put]

@[simp]
theorem order_put (placement : Placement) (index : Nat) :
    (placement.put index).order = placement.order.push index :=
  rfl

theorem placeOf_start (size index : Nat) : (start size).placeOf index = none := by
  simp only [placeOf, start, Array.getD_eq_getD_getElem?, Array.getElem?_replicate]
  split
  · rfl
  · rfl

theorem placeOf_put (inside : index < placement.place.size) (other : Nat) :
    (placement.put index).placeOf other =
      if other = index then some placement.order.size else placement.placeOf other := by
  simp only [put, placeOf, Array.getD_eq_getD_getElem?, Array.getElem?_setIfInBounds]
  by_cases same : other = index
  · subst same
    simp [inside]
  · simp [same, Ne.symm same]

/-- The number of nodes that have no place. -/
def unplaced (placement : Placement) : Nat :=
  placement.place.countP Option.isNone

theorem unplaced_put (inside : index < placement.place.size)
    (isNew : placement.placeOf index = none) :
    (placement.put index).unplaced + 1 = placement.unplaced := by
  have entry : placement.place[index] = none := by
    simpa [placeOf, Array.getD_eq_getD_getElem?, inside] using isNew
  have counted : 0 < placement.place.countP Option.isNone := by
    apply Array.countP_pos_iff.mpr
    exact ⟨none, entry ▸ Array.getElem_mem inside, rfl⟩
  simp only [unplaced, put, Array.setIfInBounds, inside, ↓reduceDIte, Array.countP_set, entry]
  simp
  omega

theorem unplaced_start (size : Nat) : (start size).unplaced = size := by
  simp [unplaced, start, Array.countP_replicate]

end Placement

namespace PostOrder

variable {nodes : Array Node} {targets : List Nat} {start stop : Placement}

theorem size_eq (walks : PostOrder nodes targets start stop) :
    stop.place.size = start.place.size := by
  induction walks with
  | nil => rfl
  | placed _ _ ih => exact ih
  | visit _ _ _ _ _ ihChildren ihRest =>
      rw [ihRest, Placement.size_put, ihChildren]

/-- A walk adds to the order that it finds. -/
theorem order_prefix (walks : PostOrder nodes targets start stop) :
    start.order.toList <+: stop.order.toList := by
  induction walks with
  | nil => exact List.prefix_rfl
  | placed _ _ ih => exact ih
  | visit _ _ _ _ _ ihChildren ihRest =>
      refine ihChildren.trans (.trans ?_ ihRest)
      rw [Placement.order_put, Array.toList_push]
      exact List.prefix_append _ _

/-- A walk places no node that comes after all of its targets. -/
theorem placeOf_eq {bound : Nat} (size_eq : start.place.size = nodes.size)
    (walks : PostOrder nodes targets start stop)
    (below : ∀ target ∈ targets, target < bound) : stop.placeOf bound = start.placeOf bound := by
  induction walks with
  | nil => rfl
  | placed _ _ ih =>
      rw [List.forall_mem_cons] at below
      exact ih size_eq below.2
  | visit isNew isNode earlier walksChildren _ ihChildren ihRest =>
      rw [List.forall_mem_cons] at below
      have inside := (Array.getElem?_eq_some_iff.mp isNode).1
      have size_eq' := walksChildren.size_eq.trans size_eq
      rw [ihRest (by simpa using size_eq') below.2,
        Placement.placeOf_put (size_eq' ▸ inside), if_neg (Nat.ne_of_gt below.1)]
      apply ihChildren size_eq
      intro child member
      exact Nat.lt_trans (earlier child member) below.1

theorem unplaced_le (size_eq : start.place.size = nodes.size)
    (walks : PostOrder nodes targets start stop) : stop.unplaced ≤ start.unplaced := by
  induction walks with
  | nil => exact Nat.le_refl _
  | placed _ _ ih => exact ih size_eq
  | visit isNew isNode earlier walksChildren _ ihChildren ihRest =>
      have size_eq' := walksChildren.size_eq.trans size_eq
      have inside := size_eq' ▸ (Array.getElem?_eq_some_iff.mp isNode).1
      have fewer := Placement.unplaced_put inside
        ((walksChildren.placeOf_eq size_eq earlier).trans isNew)
      have fewerChildren := ihChildren size_eq
      have fewerRest := ihRest (by simpa using size_eq')
      omega

end PostOrder

/-- Pairs of nodes of two lists whose children are again such pairs. No node is in two of them. -/
structure Matching (nodes nodes' : Array Node) (Matches : Nat → Nat → Prop) : Prop where
  inside {index index' : Nat} (matched : Matches index index') : index < nodes.size
  inside' {index index' : Nat} (matched : Matches index index') : index' < nodes'.size
  children {index index' : Nat} {node node' : Node} (matched : Matches index index')
    (isNode : nodes[index]? = some node) (isNode' : nodes'[index']? = some node') :
    List.Forall₂ Matches node.children node'.children
  unique {index index' other other' : Nat} (matched : Matches index index')
    (matchedOther : Matches other other') : index = other ↔ index' = other'

/-- Two walks have left matching nodes one after another, and no others that match. -/
structure Placement.Alike (Matches : Nat → Nat → Prop) (left right : Placement) : Prop where
  orders : List.Forall₂ Matches left.order.toList right.order.toList
  unplaced {index index' : Nat} (matched : Matches index index') :
    left.placeOf index = none ↔ right.placeOf index' = none

namespace Placement.Alike

variable {nodes nodes' : Array Node} {Matches : Nat → Nat → Prop}

theorem start : Alike Matches (.start nodes.size) (.start nodes'.size) := by
  constructor
  · exact .nil
  · intro index index' _
    rw [placeOf_start, placeOf_start]

theorem put {left right : Placement} {index index' : Nat} (matching : Matching nodes nodes' Matches)
    (alike : Alike Matches left right) (matched : Matches index index')
    (left_size : left.place.size = nodes.size) (right_size : right.place.size = nodes'.size) :
    Alike Matches (left.put index) (right.put index') := by
  constructor
  · rw [order_put, order_put, Array.toList_push, Array.toList_push]
    exact List.rel_append alike.orders (.cons matched .nil)
  · intro other other' matchedOther
    rw [placeOf_put (left_size ▸ matching.inside matched),
      placeOf_put (right_size ▸ matching.inside' matched)]
    by_cases same : other = index
    · have same' := (matching.unique matchedOther matched).mp same
      simp [same, same']
    · have different : other' ≠ index' :=
        fun same' => same ((matching.unique matchedOther matched).mpr same')
      rw [if_neg same, if_neg different]
      exact alike.unplaced matchedOther

end Placement.Alike

/-- Walks from matching nodes leave matching nodes. -/
theorem PostOrder.alike {nodes nodes' : Array Node} {Matches : Nat → Nat → Prop}
    (matching : Matching nodes nodes' Matches) {targets targets' : List Nat}
    {start start' stop stop' : Placement} (walks : PostOrder nodes targets start stop)
    (walks' : PostOrder nodes' targets' start' stop')
    (matched : List.Forall₂ Matches targets targets') (alike : start.Alike Matches start')
    (size_eq : start.place.size = nodes.size) (size_eq' : start'.place.size = nodes'.size) :
    stop.Alike Matches stop' := by
  induction walks generalizing targets' start' stop' with
  | nil =>
      cases matched
      cases walks'
      exact alike
  | placed isPlaced _ ih =>
      cases matched with
      | cons matchedHead matchedRest =>
          cases walks' with
          | placed _ walksRest' => exact ih walksRest' matchedRest alike size_eq size_eq'
          | visit isNew' _ _ _ _ => exact absurd ((alike.unplaced matchedHead).mpr isNew') isPlaced
  | visit isNew isNode _ walksChildren _ ihChildren ihRest =>
      cases matched with
      | cons matchedHead matchedRest =>
          cases walks' with
          | placed isPlaced' _ => exact absurd ((alike.unplaced matchedHead).mp isNew) isPlaced'
          | visit _ isNode' _ walksChildren' walksRest' =>
              have matchedChildren := matching.children matchedHead isNode isNode'
              have below := ihChildren walksChildren' matchedChildren alike size_eq size_eq'
              have size_middle := walksChildren.size_eq.trans size_eq
              have size_middle' := walksChildren'.size_eq.trans size_eq'
              apply ihRest walksRest' matchedRest
              · exact below.put matching matchedHead size_middle size_middle'
              · rw [Placement.size_put, size_middle]
              · rw [Placement.size_put, size_middle']

/-- The nodes that have been left when a walk leaves a node, after those left before: the nodes below
the children, from left to right, and the node. A reference that does not go back is not followed. -/
def orderFrom (nodes : Array Node) (index : Nat) (left : List Nat) : List Nat :=
  if index ∈ left then left
  else
    (nodes.getD index .unit).children.foldl
      (fun left child => if child < index then orderFrom nodes child left else left) left ++ [index]
termination_by index

/-- The post-order of first visits from a root. -/
def canonicalOrder (nodes : Array Node) (root : Nat) : List Nat :=
  orderFrom nodes root []

theorem orderFrom_of_mem {nodes : Array Node} {index : Nat} {left : List Nat}
    (isLeft : index ∈ left) : orderFrom nodes index left = left := by
  rw [orderFrom, if_pos isLeft]

theorem orderFrom_of_not_mem {nodes : Array Node} {index : Nat} {node : Node} {left : List Nat}
    (isNode : nodes[index]? = some node) (earlier : ∀ child ∈ node.children, child < index)
    (isNew : index ∉ left) :
    orderFrom nodes index left =
      node.children.foldl (fun left child => orderFrom nodes child left) left ++ [index] := by
  rw [orderFrom, if_neg isNew, Array.getD_eq_getD_getElem?, isNode, Option.getD_some]
  congr 1
  apply List.foldl_ext
  intro left child member
  rw [if_pos (earlier child member)]

namespace Placement

variable {nodes : Array Node} {placement : Placement} {index place : Nat}

/-- The places of nodes are their places in the order, and no node comes before a child of it. -/
structure Coherent (nodes : Array Node) (placement : Placement) : Prop where
  size_eq : placement.place.size = nodes.size
  placeOf_iff : ∀ index place,
    placement.placeOf index = some place ↔ placement.order[place]? = some index
  children : ∀ {index place : Nat} {node : Node}, placement.placeOf index = some place →
    nodes[index]? = some node → ∀ child ∈ node.children,
      ∃ earlier < place, placement.placeOf child = some earlier

theorem lt_size_of_placeOf (isPlaced : placement.placeOf index = some place) :
    index < placement.place.size := by
  by_contra outside
  simp [placeOf, Array.getD_eq_getD_getElem?, outside] at isPlaced

namespace Coherent

theorem lt_size (coherent : placement.Coherent nodes)
    (isPlaced : placement.placeOf index = some place) : index < nodes.size :=
  coherent.size_eq ▸ lt_size_of_placeOf isPlaced

theorem place_lt (coherent : placement.Coherent nodes)
    (isPlaced : placement.placeOf index = some place) : place < placement.order.size :=
  (Array.getElem?_eq_some_iff.mp ((coherent.placeOf_iff index place).mp isPlaced)).1

theorem placeOf_getElem (coherent : placement.Coherent nodes) (inside : place < placement.order.size) :
    placement.placeOf placement.order[place] = some place :=
  (coherent.placeOf_iff _ place).mpr (Array.getElem?_eq_getElem inside)

theorem placeOf_ne_none_iff (coherent : placement.Coherent nodes) :
    placement.placeOf index ≠ none ↔ index ∈ placement.order.toList := by
  rw [Option.ne_none_iff_exists', List.mem_iff_getElem?]
  simp only [coherent.placeOf_iff, Array.getElem?_toList]

theorem start (nodes : Array Node) : (Placement.start nodes.size).Coherent nodes where
  size_eq := by simp [Placement.start]
  placeOf_iff := by
    intro index place
    rw [placeOf_start]
    simp [Placement.start]
  children := by
    intro index place node isPlaced
    rw [placeOf_start] at isPlaced
    cases isPlaced

/-- A node can be left once its children have been. -/
theorem put (coherent : placement.Coherent nodes) {node : Node}
    (isNode : nodes[index]? = some node) (isNew : placement.placeOf index = none)
    (childrenPlaced : ∀ child ∈ node.children, placement.placeOf child ≠ none) :
    (placement.put index).Coherent nodes := by
  have inside : index < placement.place.size := by
    rw [coherent.size_eq]
    exact (Array.getElem?_eq_some_iff.mp isNode).1
  refine ⟨by simpa using coherent.size_eq, ?_, ?_⟩
  · intro other place
    rw [placeOf_put inside, order_put, Array.getElem?_push]
    by_cases last : place = placement.order.size
    · subst last
      by_cases same : other = index
      · simp [same]
      · have notLast : placement.placeOf other ≠ some placement.order.size :=
          fun isLast => absurd (coherent.place_lt isLast) (Nat.lt_irrefl _)
        simp [same, Ne.symm same, notLast]
    · rw [if_neg last, ← coherent.placeOf_iff]
      by_cases same : other = index
      · subst same
        simp [isNew, Ne.symm last]
      · simp [same]
  · intro other place otherNode isPlaced isOtherNode child member
    rw [placeOf_put inside] at isPlaced ⊢
    by_cases same : other = index
    · subst same
      rw [isNode] at isOtherNode
      cases isOtherNode
      rw [if_pos rfl, Option.some.injEq] at isPlaced
      rcases Option.ne_none_iff_exists'.mp (childrenPlaced child member) with ⟨earlier, isEarlier⟩
      have different : child ≠ other := by
        rintro rfl
        rw [isNew] at isEarlier
        cases isEarlier
      exact ⟨earlier, isPlaced ▸ coherent.place_lt isEarlier, by rw [if_neg different, isEarlier]⟩
    · rw [if_neg same] at isPlaced
      rcases coherent.children isPlaced isOtherNode child member with ⟨earlier, lt, isEarlier⟩
      have different : child ≠ index := by
        rintro rfl
        rw [isNew] at isEarlier
        cases isEarlier
      exact ⟨earlier, lt, by rw [if_neg different, isEarlier]⟩

end Coherent

end Placement

namespace PostOrder

variable {nodes : Array Node} {targets : List Nat} {start stop : Placement}

/-- A walk moves no node that has a place, and gives one to each of its targets. -/
theorem coherent (walks : PostOrder nodes targets start stop)
    (coherentStart : start.Coherent nodes) :
    stop.Coherent nodes ∧
      (∀ index place, start.placeOf index = some place → stop.placeOf index = some place) ∧
      ∀ target ∈ targets, stop.placeOf target ≠ none := by
  induction walks with
  | nil => exact ⟨coherentStart, fun _ _ isPlaced => isPlaced, by simp⟩
  | placed isPlaced _ ih =>
      rcases ih coherentStart with ⟨coherentStop, keeps, reached⟩
      refine ⟨coherentStop, keeps, ?_⟩
      rw [List.forall_mem_cons]
      refine ⟨?_, reached⟩
      rcases Option.ne_none_iff_exists'.mp isPlaced with ⟨place, isPlace⟩
      simp [keeps _ place isPlace]
  | @visit index node rest start middle stop isNew isNode earlier walksChildren _ ihChildren ihRest =>
      rcases ihChildren coherentStart with ⟨coherentMiddle, keeps, childrenPlaced⟩
      have inside : index < middle.place.size := by
        rw [coherentMiddle.size_eq]
        exact (Array.getElem?_eq_some_iff.mp isNode).1
      have stillNew : middle.placeOf index = none :=
        (walksChildren.placeOf_eq coherentStart.size_eq earlier).trans isNew
      rcases ihRest (coherentMiddle.put isNode stillNew childrenPlaced) with
        ⟨coherentStop, keepsRest, reached⟩
      refine ⟨coherentStop, ?_, ?_⟩
      · intro other place isPlaced
        apply keepsRest
        have different : other ≠ index := by
          rintro rfl
          rw [isNew] at isPlaced
          cases isPlaced
        rw [Placement.placeOf_put inside, if_neg different]
        exact keeps other place isPlaced
      · rw [List.forall_mem_cons]
        refine ⟨?_, reached⟩
        have isLast : (middle.put index).placeOf index = some middle.order.size := by
          rw [Placement.placeOf_put inside, if_pos rfl]
        simp [keepsRest index _ isLast]

/-- A node that is new when its children are walked is still new afterwards, and can be left. -/
theorem coherent_put {index : Nat} {node : Node}
    (walksChildren : PostOrder nodes node.children start stop) (coherentStart : start.Coherent nodes)
    (isNew : start.placeOf index = none) (isNode : nodes[index]? = some node)
    (earlier : ∀ child ∈ node.children, child < index) :
    stop.placeOf index = none ∧ (stop.put index).Coherent nodes := by
  rcases walksChildren.coherent coherentStart with ⟨coherentStop, -, childrenPlaced⟩
  have stillNew := (walksChildren.placeOf_eq coherentStart.size_eq earlier).trans isNew
  exact ⟨stillNew, coherentStop.put isNode stillNew childrenPlaced⟩

/-- The order of a walk is the one that the recursion gives. -/
theorem order_eq (walks : PostOrder nodes targets start stop)
    (coherentStart : start.Coherent nodes) :
    stop.order.toList =
      targets.foldl (fun left target => orderFrom nodes target left) start.order.toList := by
  induction walks with
  | nil => rfl
  | placed isPlaced _ ih =>
      rw [List.foldl_cons, orderFrom_of_mem (coherentStart.placeOf_ne_none_iff.mp isPlaced)]
      exact ih coherentStart
  | @visit index node rest start middle stop isNew isNode earlier walksChildren _ ihChildren ihRest =>
      have notLeft : index ∉ start.order.toList := by
        rw [← coherentStart.placeOf_ne_none_iff]
        simpa using isNew
      have coherentPut := (walksChildren.coherent_put coherentStart isNew isNode earlier).2
      rw [List.foldl_cons, orderFrom_of_not_mem isNode earlier notLeft, ← ihChildren coherentStart,
        ihRest coherentPut, Placement.order_put, Array.toList_push]

/-- The walk from a root leaves the nodes in the order that the recursion gives. -/
theorem canonicalOrder_eq {root : Nat} (walks : PostOrder nodes [root] (.start nodes.size) stop) :
    stop.order.toList = canonicalOrder nodes root :=
  walks.order_eq (.start nodes)

/-- The root of a walk has the last place. -/
theorem placeOf_root {root : Nat}
    (walks : PostOrder nodes [root] (.start nodes.size) stop) :
    stop.placeOf root = some (stop.order.size - 1) := by
  cases walks with
  | placed isPlaced _ => exact absurd (Placement.placeOf_start _ _) isPlaced
  | @visit _ node _ _ middle _ _ isNode _ walksChildren walksRest =>
      cases walksRest
      have coherentMiddle := (walksChildren.coherent (.start nodes)).1
      have inside : root < middle.place.size := by
        rw [coherentMiddle.size_eq]
        exact (Array.getElem?_eq_some_iff.mp isNode).1
      simp [Placement.placeOf_put inside]

theorem order_pos {root : Nat} (walks : PostOrder nodes [root] (.start nodes.size) stop) :
    0 < stop.order.size := by
  cases walks with
  | placed isPlaced _ => exact absurd (Placement.placeOf_start _ _) isPlaced
  | visit _ _ _ _ walksRest =>
      cases walksRest
      simp

/-- A walk leaves nothing but what its targets lead to. -/
theorem reaches_of_mem (walks : PostOrder nodes targets start stop)
    (reached : ∀ target ∈ targets, Reaches nodes root target)
    (reachedBefore : ∀ index ∈ start.order.toList, Reaches nodes root index) :
    ∀ index ∈ stop.order.toList, Reaches nodes root index := by
  induction walks with
  | nil => exact reachedBefore
  | placed _ _ ih =>
      rw [List.forall_mem_cons] at reached
      exact ih reached.2 reachedBefore
  | visit _ isNode _ _ _ ihChildren ihRest =>
      rw [List.forall_mem_cons] at reached
      have reachedMiddle :=
        ihChildren (fun child member => .child reached.1 isNode member) reachedBefore
      apply ihRest reached.2
      intro index member
      simp only [Placement.order_put, Array.toList_push, List.mem_append,
        List.mem_singleton] at member
      rcases member with isMiddle | rfl
      · exact reachedMiddle index isMiddle
      · exact reached.1

/-- The walk from a root places exactly the nodes that the root leads to. -/
theorem exists_placeOf_iff (walks : PostOrder nodes [root] (.start nodes.size) stop)
    {index : Nat} :
    (∃ place, stop.placeOf index = some place) ↔ Reaches nodes root index := by
  have coherent := (walks.coherent (.start nodes)).1
  constructor
  · rintro ⟨place, isPlaced⟩
    have member : index ∈ stop.order.toList := by
      rw [← coherent.placeOf_ne_none_iff, isPlaced]
      simp
    apply walks.reaches_of_mem ?_ ?_ index member
    · simpa using Reaches.root
    · simp [Placement.start]
  · intro reached
    induction reached with
    | root => exact ⟨_, walks.placeOf_root⟩
    | child _ isNode member ih =>
        rcases ih with ⟨place, isPlaced⟩
        rcases coherent.children isPlaced isNode _ member with ⟨earlier, -, isEarlier⟩
        exact ⟨earlier, isEarlier⟩

end PostOrder

end Simplicity
