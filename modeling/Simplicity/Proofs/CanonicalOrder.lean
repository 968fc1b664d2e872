import Simplicity.Proofs.Linearization

/-!
# The check of the canonical order

The check marks a node when it enters it and then passes over it wherever it meets it again, also while
the node is still waiting for its children. A walk through nodes that have their children before them
does not meet such a node, so there the marks of the nodes below the one that is entered say which of
them have been left, and the check follows the recursive walk up to the first node that is not left at
its own index.
-/

namespace Simplicity

variable {nodes : Array Node}

/-- An order that lists every index in its place up to a certain one, and has another in the place of
that one. -/
def DepartsAt (order : List Nat) (index : Nat) : Prop :=
  ∃ other ≠ index, List.range index ++ [other] <+: order

theorem DepartsAt.mono {order order' : List Nat} {index : Nat} (departs : DepartsAt order index)
    (grows : order <+: order') : DepartsAt order' index := by
  rcases departs with ⟨other, different, begins⟩
  exact ⟨other, different, begins.trans grows⟩

theorem DepartsAt.take_eq {order : List Nat} {index : Nat} (departs : DepartsAt order index) :
    order.take index = List.range index := by
  rcases departs with ⟨other, different, after, rfl⟩
  rw [List.append_assoc, List.take_left' List.length_range]

theorem DepartsAt.getElem?_ne {order : List Nat} {index : Nat} (departs : DepartsAt order index) :
    order[index]? ≠ some index := by
  rcases departs with ⟨other, different, after, rfl⟩
  simpa [List.append_assoc] using different

theorem DepartsAt.ne_range {order : List Nat} {index count : Nat} (departs : DepartsAt order index) :
    order ≠ List.range count := by
  rintro rfl
  have inside : index + 1 ≤ count := by
    rcases departs with ⟨other, different, begins⟩
    simpa using begins.length_le
  exact departs.getElem?_ne (List.getElem?_range inside)

namespace OrderCheck

variable {check : OrderCheck} {bound index : Nat} {placement start stop : Placement}

theorem isVisited_enter_of_ne {other : Nat} (different : other ≠ index) :
    (check.enter index).isVisited other = check.isVisited other := by
  simp [isVisited, enter, Array.getD_eq_getD_getElem?, Array.getElem?_setIfInBounds_ne different.symm]

theorem isVisited_enter_self (inside : index < check.visited.size) :
    (check.enter index).isVisited index = true := by
  simp [isVisited, enter, Array.getD_eq_getD_getElem?, inside]

/-- A check has come as far as a walk. Below a bound, the marked nodes are those that have been left. -/
structure Tracks (nodes : Array Node) (bound : Nat) (check : OrderCheck) (placement : Placement) :
    Prop where
  size_eq : check.visited.size = nodes.size
  isVisited_iff : ∀ index < bound, check.isVisited index = true ↔ placement.placeOf index ≠ none
  emitted_eq : check.emitted = placement.order.size
  inOrder : placement.order.toList = List.range placement.order.size

/-- A node has been entered. Nodes below it are marked as before. -/
theorem Tracks.enter (tracks : Tracks nodes bound check placement) (le : index ≤ bound) :
    Tracks nodes index (check.enter index) placement where
  size_eq := by simpa [OrderCheck.enter] using tracks.size_eq
  isVisited_iff := by
    intro other below
    rw [isVisited_enter_of_ne (Nat.ne_of_lt below)]
    exact tracks.isVisited_iff other (Nat.lt_of_lt_of_le below le)
  emitted_eq := tracks.emitted_eq
  inOrder := tracks.inOrder

/-- A node has been left in its turn. Between the node and the bound nothing has changed since it was
entered. -/
theorem Tracks.leave {check' : OrderCheck} {middle : Placement}
    (tracks : Tracks nodes bound check start) (tracks' : Tracks nodes index check' middle)
    (inside : index < nodes.size) (insideMiddle : index < middle.place.size)
    (marks : ∀ other, index ≤ other → check'.isVisited other = (check.enter index).isVisited other)
    (places : ∀ other, index ≤ other → middle.placeOf other = start.placeOf other)
    (inOrder : index = check'.emitted) : Tracks nodes bound check'.leave (middle.put index) where
  size_eq := tracks'.size_eq
  isVisited_iff := by
    intro other below
    change check'.isVisited other = true ↔ _
    rw [Placement.placeOf_put insideMiddle]
    rcases Nat.lt_trichotomy other index with lower | rfl | higher
    · rw [if_neg (Nat.ne_of_lt lower)]
      exact tracks'.isVisited_iff other lower
    · rw [marks other (Nat.le_refl _), isVisited_enter_self (tracks.size_eq ▸ inside)]
      simp
    · rw [if_neg (Nat.ne_of_gt higher), marks other (Nat.le_of_lt higher),
        isVisited_enter_of_ne (Nat.ne_of_gt higher), places other (Nat.le_of_lt higher)]
      exact tracks.isVisited_iff other below
  emitted_eq := by
    rw [Placement.order_put, Array.size_push, ← tracks'.emitted_eq]
    rfl
  inOrder := by
    rw [Placement.order_put, Array.toList_push, Array.size_push, List.range_succ, tracks'.inOrder,
      ← tracks'.emitted_eq, inOrder]

/-- A node is left out of its turn. Whatever is left after it, the order departs here. -/
theorem Tracks.departsAt {order : List Nat} (tracks : Tracks nodes bound check placement)
    (outOfOrder : index ≠ check.emitted) (grows : (placement.put index).order.toList <+: order) :
    DepartsAt order check.emitted := by
  refine ⟨index, outOfOrder, ?_⟩
  rwa [Placement.order_put, Array.toList_push, tracks.inOrder, ← tracks.emitted_eq] at grows

/-- The check of some nodes follows the walk through them, or stops at an index at which the order that
the walk leaves departs from the listed one. -/
inductive Follows (nodes : Array Node) (bound : Nat) (kept : List Nat) (check : OrderCheck)
    (start stop : Placement) : Prop where
  | passes {check' : OrderCheck} {cost : Nat} (tracks : Tracks nodes bound check' stop)
      (keeps : ∀ index, bound ≤ index → check'.isVisited index = check.isVisited index)
      (enough : cost + 3 * stop.unplaced ≤ kept.length + 3 * start.unplaced)
      (runs : Runs (visit nodes) cost (kept.map .enter) check (goesOn (visit nodes) check'))
  | refuses {index cost : Nat} (departs : DepartsAt stop.order.toList index)
      (enough : cost + 3 * stop.unplaced ≤ kept.length + 3 * start.unplaced)
      (runs : Runs (visit nodes) cost (kept.map .enter) check
        (failsWith (.notInCanonicalOrder index)))

section Steps

variable {node : Node}

theorem visit_visited (isVisited : check.isVisited index = true) :
    visit nodes (.enter index) check = .ok ([], check) := by
  simp only [visit, isVisited]

theorem visit_enter (isNew : check.isVisited index = false) (isNode : nodes[index]? = some node) :
    visit nodes (.enter index) check =
      .ok ((node.children.filter fun child => !(check.enter index).isVisited child).map .enter ++
        [.leave index], check.enter index) := by
  simp only [visit, isNew, isNode]

theorem visit_leave (inOrder : index = check.emitted) :
    visit nodes (.leave index) check = .ok ([], check.leave) := by
  simp only [visit, inOrder, if_true]

theorem visit_leave_of_ne (outOfOrder : index ≠ check.emitted) :
    visit nodes (.leave index) check = .error (.notInCanonicalOrder check.emitted) := by
  simp only [visit, outOfOrder, if_false]

end Steps

namespace Follows

variable {kept rest : List Nat}

theorem skip (isVisited : check.isVisited index = true)
    (follows : Follows nodes bound kept check start stop) :
    Follows nodes bound (index :: kept) check start stop := by
  have skips : visit nodes (.enter index) check = .ok ([], check) := visit_visited isVisited
  cases follows with
  | passes tracks keeps enough runs =>
      refine .passes tracks keeps ?_ (runs.cons skips)
      rw [List.length_cons]
      omega
  | refuses departs enough runs =>
      refine .refuses departs ?_ (runs.cons skips)
      rw [List.length_cons]
      omega

/-- A node that is new is left after those of its children that are not marked, if that is its turn, and
then the check goes on with what follows. -/
theorem visit {node : Node} {middle : Placement} (tracks : Tracks nodes bound check start)
    (below : index < bound) (coherent : start.Coherent nodes) (isNew : start.placeOf index = none)
    (isNode : nodes[index]? = some node) (earlier : ∀ child ∈ node.children, child < index)
    (walksChildren : PostOrder nodes node.children start middle)
    (walksRest : PostOrder nodes rest (middle.put index) stop)
    (children : Follows nodes index
      (node.children.filter fun child => !(check.enter index).isVisited child) (check.enter index)
      start middle)
    (others : ∀ check', Tracks nodes bound check' (middle.put index) →
      Follows nodes bound kept check' (middle.put index) stop) :
    Follows nodes bound (index :: kept) check start stop := by
  have inside := (Array.getElem?_eq_some_iff.mp isNode).1
  have unmarked : check.isVisited index = false := by
    rw [← Bool.not_eq_true, tracks.isVisited_iff index below]
    simpa using isNew
  have enters := visit_enter unmarked isNode
  have few : (node.children.filter fun child => !(check.enter index).isVisited child).length ≤ 2 :=
    Nat.le_trans (List.length_filter_le _ _) node.length_children_le
  have inside' : index < middle.place.size := by
    rwa [walksChildren.size_eq, coherent.size_eq]
  rcases walksChildren.coherent_put coherent isNew isNode earlier with ⟨stillNew, coherentPut⟩
  have fewer := Placement.unplaced_put inside' stillNew
  have fewerRest := walksRest.unplaced_le coherentPut.size_eq
  cases children with
  | refuses departs enough runs =>
      have departs' := departs.mono (.trans ⟨[index], by simp⟩ walksRest.order_prefix)
      refine .refuses departs' ?_ (.cons_append_of_fails enters runs)
      rw [List.length_cons]
      omega
  | @passes check' cost tracks' marks enough runs =>
      by_cases inOrder : index = check'.emitted
      · have places : ∀ other, index ≤ other → middle.placeOf other = start.placeOf other := by
          intro other le
          apply walksChildren.placeOf_eq coherent.size_eq
          exact fun child member => Nat.lt_of_lt_of_le (earlier child member) le
        have leaves : OrderCheck.visit nodes (.leave index) check' = .ok ([], check'.leave) :=
          visit_leave inOrder
        cases others _ (tracks.leave tracks' inside inside' marks places inOrder) with
        | refuses departs enoughRest runsRest =>
            refine .refuses departs ?_ (.cons_append enters runs (.cons leaves runsRest))
            rw [List.length_cons]
            omega
        | passes tracksStop marksRest enoughRest runsRest =>
            refine .passes tracksStop ?_ ?_ (.cons_append enters runs (.cons leaves runsRest))
            · intro other le
              have above : index < other := Nat.lt_of_lt_of_le below le
              rw [marksRest other le]
              change check'.isVisited other = _
              rw [marks other (Nat.le_of_lt above), isVisited_enter_of_ne (Nat.ne_of_gt above)]
            · rw [List.length_cons]
              omega
      · have fails : OrderCheck.visit nodes (.leave index) check' =
            .error (.notInCanonicalOrder check'.emitted) := visit_leave_of_ne inOrder
        refine .refuses (tracks'.departsAt inOrder walksRest.order_prefix) ?_
          (.cons_append enters runs (.cons_of_fails fails))
        rw [List.length_cons]
        omega

end Follows

/-- The induction is on the walk. Some of the targets may have been left out because they had been
left before; the walk passes over them anyway. -/
theorem follows_of_postOrder {targets : List Nat} (walks : PostOrder nodes targets start stop)
    (coherent : start.Coherent nodes) (tracks : Tracks nodes bound check start)
    (below : ∀ target ∈ targets, target < bound) {keep : Nat → Bool}
    (dropped : ∀ target ∈ targets, keep target = false → start.placeOf target ≠ none) :
    Follows nodes bound (targets.filter keep) check start stop := by
  induction walks generalizing bound check keep with
  | nil =>
      refine .passes tracks (fun _ _ => rfl) ?_ .nil
      simp
  | @placed index rest start stop isPlaced walksRest ih =>
      rw [List.forall_mem_cons] at below dropped
      have follows := ih coherent tracks below.2 dropped.2
      by_cases isKept : keep index = true
      · rw [List.filter_cons_of_pos isKept]
        exact follows.skip ((tracks.isVisited_iff index below.1).mpr isPlaced)
      · rw [List.filter_cons_of_neg isKept]
        exact follows
  | @visit index node rest start middle stop isNew isNode earlier walksChildren walksRest ihChildren
      ihRest =>
      rw [List.forall_mem_cons] at below dropped
      have isKept : keep index = true := by
        by_contra isDropped
        exact dropped.1 (by simpa using isDropped) isNew
      have inside := (Array.getElem?_eq_some_iff.mp isNode).1
      have tracksEnter := tracks.enter (Nat.le_of_lt below.1)
      have coherentPut := (walksChildren.coherent_put coherent isNew isNode earlier).2
      have keepsPlaces := (walksChildren.coherent coherent).2.1
      rw [List.filter_cons_of_pos isKept]
      apply Follows.visit tracks below.1 coherent isNew isNode earlier walksChildren walksRest
      · apply ihChildren coherent tracksEnter earlier
        intro child member isDropped
        rw [← tracksEnter.isVisited_iff child (earlier child member)]
        simpa using isDropped
      · intro check' tracksLeave
        apply ihRest coherentPut tracksLeave below.2
        intro target member isDropped
        rcases Option.ne_none_iff_exists'.mp (dropped.2 target member isDropped) with
          ⟨place, isPlaced⟩
        rw [Placement.placeOf_put (by rwa [walksChildren.size_eq, coherent.size_eq])]
        split
        · simp
        · simp [keepsPlaces target place isPlaced]

end OrderCheck

theorem OrderCheck.tracks_start : Tracks nodes nodes.size (.start nodes.size) (.start nodes.size) where
  size_eq := by simp [OrderCheck.start]
  isVisited_iff := by
    intro index inside
    rw [Placement.placeOf_start]
    simp [OrderCheck.start, isVisited, Array.getD_eq_getD_getElem?, inside]
  emitted_eq := rfl
  inOrder := rfl

/-- The check of nodes that have their children before them fails at the first index that is not in its
place in the order in which a walk from the last node leaves the nodes. -/
theorem checkOrder_spec (childrenFirst : ChildrenFirst nodes) (nonempty : 0 < nodes.size) :
    (checkOrder nodes = .ok () ∧
      canonicalOrder nodes (nodes.size - 1) = List.range nodes.size) ∨
    ∃ index, checkOrder nodes = .error (.notInCanonicalOrder index) ∧
      canonicalOrder nodes (nodes.size - 1) ≠ List.range nodes.size ∧
      (canonicalOrder nodes (nodes.size - 1)).take index = List.range index ∧
      (canonicalOrder nodes (nodes.size - 1))[index]? ≠ some index := by
  have inside : nodes.size - 1 < nodes.size := Nat.sub_lt nonempty Nat.one_pos
  rcases Builder.exists_linearize (childrenFirst.backwardFrom inside) with ⟨stop, walks, -⟩
  have follows : OrderCheck.Follows nodes nodes.size ([nodes.size - 1].filter fun _ => true) _ _ _ :=
    OrderCheck.follows_of_postOrder walks (.start nodes) OrderCheck.tracks_start
      (by simpa using inside) (by simp)
  rw [List.filter_true] at follows
  rw [checkOrder, ← walks.canonicalOrder_eq]
  cases follows with
  | @passes check cost tracks _ enough runs =>
      rw [Placement.unplaced_start, List.length_singleton] at enough
      rcases runs.exists_eq (show cost ≤ 3 * nodes.size + 1 by omega) with ⟨fuel, ran⟩
      change walkFrom _ _ [.enter _] _ = _ at ran
      rw [ran, goesOn_nil, tracks.inOrder, ← tracks.emitted_eq]
      by_cases all : check.emitted = nodes.size
      · exact .inl ⟨if_pos all, congrArg List.range all⟩
      · refine .inr ⟨check.emitted, if_neg all, ?_, ?_, ?_⟩
        · intro same
          exact all (by simpa using congrArg List.length same)
        · simp
        · simp
  | @refuses index cost departs enough runs =>
      rw [Placement.unplaced_start, List.length_singleton] at enough
      rcases runs.exists_eq (show cost ≤ 3 * nodes.size + 1 by omega) with ⟨fuel, ran⟩
      change walkFrom _ _ [.enter _] _ = _ at ran
      rw [ran]
      exact .inr ⟨index, rfl, departs.ne_range, departs.take_eq, departs.getElem?_ne⟩

/-- Nodes that have their children before them pass the check exactly if a walk from the last one leaves
them in the order in which they are listed. -/
theorem checkOrder_eq_ok_iff (childrenFirst : ChildrenFirst nodes) (nonempty : 0 < nodes.size) :
    checkOrder nodes = .ok () ↔
      canonicalOrder nodes (nodes.size - 1) = List.range nodes.size := by
  rcases checkOrder_spec childrenFirst nonempty with ⟨checked, listed⟩ | ⟨index, failed, other, -⟩
  · exact iff_of_true checked listed
  · refine iff_of_false ?_ other
    rw [failed]
    rintro ⟨⟩

end Simplicity
