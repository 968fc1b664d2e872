import Mathlib.Data.Set.Function
import Simplicity.Proofs.Expression.Acceptance

/-!
# What a builder finishes

A builder may hold anything besides the nodes that the root leads to. These are laid out in canonical
order, so finishing fails only if a hidden node stands where none may be or if there are no types.
Laying out renames the nodes and does nothing else; `Isomorphism` says what a renaming is. Whether a
choice with a hidden branch is written as an assertion makes no difference, so a renaming is one of the
nodes in normal form.

Two builders that differ by a renaming are walked alike, and give every node the same place. So the
expression, or the reason why there is none, depends on the nodes below the root up to a renaming.
-/

namespace Simplicity

/-- The nodes that one root leads to are those that another root leads to, under other names. They
have the same combinators and payloads, in normal form, and the same children in the same order. -/
structure Isomorphism (nodes nodes' : Array Node) (root root' : Nat) (rename : Nat → Nat) : Prop where
  bijOn : Set.BijOn rename {index | Reaches nodes root index} {index | Reaches nodes' root' index}
  root_eq : rename root = root'
  node_eq : ∀ {index : Nat}, Reaches nodes root index →
    (normalized nodes')[rename index]? = (normalized nodes)[index]?.map (Combinator.map rename)

namespace Combinator

variable {ρ σ : Type} {hidden hidden' : ρ → Bool} {node : Combinator ρ}

theorem normalize_congr (agree : ∀ child ∈ node.children, hidden child = hidden' child) :
    node.normalize hidden = node.normalize hidden' := by
  cases node with
  | case left right => simp [normalize, agree left (.head _), agree right (.tail _ (.head _))]
  | _ => rfl

theorem normalize_map {hidden : σ → Bool} (f : ρ → σ) (node : Combinator ρ) :
    (node.map f).normalize hidden = (node.normalize fun child => hidden (f child)).map f := by
  cases node with
  | case left right =>
      simp only [map, mapMem, normalize]
      cases hidden (f left) <;> cases hidden (f right) <;> rfl
  | _ => rfl

theorem settle?_normalize (hidden : ρ → Bool) (node : Combinator ρ) :
    (node.normalize hidden).settle? hidden = node.settle? hidden := by
  cases node with
  | case left right =>
      simp only [normalize]
      cases isLeft : hidden left <;> cases isRight : hidden right <;>
        simp [settle?, assertVisible, Combinator.settled, isLeft, isRight]
  | _ => rfl

end Combinator

namespace Expression

variable (expression : Expression)

/-- The root of an expression leads to all of its nodes. -/
theorem reaches_iff {index : Nat} :
    Reaches expression.nodes expression.root index ↔ index < expression.size := by
  rcases expression.exists_postOrder with ⟨placement, walks, listed⟩
  have coherent := (walks.coherent (.start _)).1
  rw [← walks.exists_placeOf_iff, ← Option.ne_none_iff_exists',
    coherent.placeOf_ne_none_iff, listed]
  simp

theorem normalized_nodes : normalized expression.nodes = expression.nodes :=
  (acceptable_of_ofNodes expression.ofNodes_nodes).1.symm

end Expression

/-! ### Listing nodes in order -/

namespace Dag

variable {dag result : Dag} {node node' : Node} {error : Error}

theorem add_eq_error (earlier : ∀ child ∈ node.children, child < dag.nodes.size)
    (fails : dag.add node = .error error) :
    node.settle? (hiddenAt dag.nodes) = none ∧ error = .hiddenChild dag.size := by
  rw [add, dif_pos earlier] at fails
  split at fails
  case h_1 => cases fails
  case h_2 isNone => exact ⟨isNone, (Except.error.inj fails).symm⟩

theorem add_congr (earlier : ∀ child ∈ node.children, child < dag.nodes.size)
    (sameChildren : node'.children = node.children)
    (sameSettled : node'.settle? (hiddenAt dag.nodes) = node.settle? (hiddenAt dag.nodes)) :
    dag.add node' = dag.add node := by
  cases added : dag.add node with
  | ok result =>
      rw [add_eq_ok_iff, sameSettled]
      exact add_eq_ok_iff.mp added
  | error error =>
      rcases add_eq_error earlier added with ⟨isNone, rfl⟩
      cases added' : dag.add node' with
      | ok result' =>
          rcases add_eq_ok_iff.mp added' with ⟨settled, settles, -⟩
          rw [sameSettled, isNone] at settles
          cases settles
      | error error' => rw [(add_eq_error (sameChildren ▸ earlier) added').2]

/-- Nodes that come after others, all of which have their children before them, are refused only for
hidden children; and it makes no difference if they are put in normal form beforehand. -/
theorem foldlM_add_of_childrenFirst {nodes : Array Node} (childrenFirst : ChildrenFirst nodes)
    {before after : List Node} {start : Dag} (split : nodes.toList = before ++ after)
    (size_eq : start.nodes.size = before.length)
    (agree : ∀ index < start.nodes.size, hiddenAt start.nodes index = hiddenAt nodes index) :
    (∀ error, after.foldlM add start = .error error → ∃ index, error = .hiddenChild index) ∧
      (after.map (·.normalize (hiddenAt nodes))).foldlM add start = after.foldlM add start := by
  induction after generalizing before start with
  | nil =>
      refine ⟨?_, rfl⟩
      intro error fails
      cases fails
  | cons node after ih =>
      have isNode : nodes[start.nodes.size]? = some node := by
        rw [← Array.getElem?_toList, split, size_eq]
        simp
      have earlier := childrenFirst _ _ isNode
      have sameAdd : start.add (node.normalize (hiddenAt nodes)) = start.add node := by
        apply add_congr earlier Combinator.children_normalize
        rw [← Combinator.normalize_congr fun child member => agree child (earlier child member)]
        exact Combinator.settle?_normalize _ _
      rw [List.map_cons, List.foldlM_cons, List.foldlM_cons, sameAdd]
      cases added : start.add node with
      | error cause =>
          refine ⟨?_, rfl⟩
          intro error fails
          cases fails
          exact ⟨_, (add_eq_error earlier added).2⟩
      | ok next =>
          rcases add_eq_ok_iff.mp added with ⟨settled, settles, pushed⟩
          have keepsHidden : settled.isHidden = node.isHidden := by
            rw [(Combinator.settle?_eq_some_iff.mp settles).1, Combinator.isHidden_normalize]
          apply @ih (before ++ [node]) next (by simp [split]) (by simp [pushed, size_eq])
          intro index inside
          rw [pushed, Array.size_push] at inside
          rw [pushed]
          rcases Nat.lt_succ_iff_lt_or_eq.mp inside with old | rfl
          · rw [hiddenAt_push old, agree index old]
          · simp [hiddenAt, isNode, keepsHidden]

theorem ofNodes_of_childrenFirst {nodes : Array Node} (childrenFirst : ChildrenFirst nodes) :
    (∀ error, ofNodes nodes = .error error → ∃ index, error = .hiddenChild index) ∧
      ofNodes (normalized nodes) = ofNodes nodes := by
  rw [ofNodes, ofNodes, normalized, Array.toList_map]
  apply foldlM_add_of_childrenFirst childrenFirst (List.nil_append _).symm
  · rfl
  · intro index inside
    exact absurd inside (Nat.not_lt_zero _)

end Dag

namespace Expression

variable {nodes : Array Node} {error : Error}

theorem ofDag_eq_error {dag : Dag} {nonempty : 0 < dag.size}
    {visible : hiddenAt dag.nodes (dag.size - 1) = false}
    (ordered : checkOrder dag.nodes = .ok ())
    (fails : ofDag dag nonempty visible = .error error) : ∃ cause, error = .illTyped cause := by
  unfold ofDag at fails
  split at fails
  case h_1 failed =>
    rw [ordered] at failed
    cases failed
  case h_2 =>
    split at fails
    case h_1 cause _ => exact ⟨cause, (Except.error.inj fails).symm⟩
    case h_2 => cases fails

/-- Nodes that are in canonical order are refused for hidden nodes and for types only. -/
theorem ofNodes_eq_error (childrenFirst : ChildrenFirst nodes) (nonempty : 0 < nodes.size)
    (ordered : canonicalOrder nodes (nodes.size - 1) = List.range nodes.size)
    (fails : ofNodes nodes = .error error) :
    (∃ index, error = .hiddenChild index) ∨ error = .hiddenRoot ∨
      ∃ cause, error = .illTyped cause := by
  unfold ofNodes at fails
  cases lists : Dag.ofNodes nodes with
  | error cause =>
      rw [lists] at fails
      cases fails
      exact .inl ((Dag.ofNodes_of_childrenFirst childrenFirst).1 _ lists)
  | ok dag =>
      have listed := (Dag.ofNodes_eq_ok_iff_normalized.mp lists).1
      have sized : dag.size = nodes.size := by rw [Dag.size, listed, size_normalized]
      have nonempty' : 0 < dag.size := sized ▸ nonempty
      have ordered' : checkOrder dag.nodes = .ok () := by
        rw [checkOrder_eq_ok_iff dag.childrenFirst nonempty', listed, size_normalized,
          canonicalOrder_normalized]
        exact ordered
      rw [lists] at fails
      change (if nonempty : 0 < dag.size then
        if visible : hiddenAt dag.nodes (dag.size - 1) = false then ofDag dag nonempty visible
        else throw .hiddenRoot
        else throw .emptyProgram) = _ at fails
      rw [dif_pos nonempty'] at fails
      split at fails
      case isTrue => exact .inr (.inr (ofDag_eq_error ordered' fails))
      case isFalse =>
        cases fails
        exact .inr (.inl rfl)

theorem ofNodes_normalized (childrenFirst : ChildrenFirst nodes) :
    ofNodes (normalized nodes) = ofNodes nodes := by
  rw [ofNodes, ofNodes, (Dag.ofNodes_of_childrenFirst childrenFirst).2]

end Expression

/-! ### Laying out -/

namespace Builder

variable {nodes : Array Node} {root : Nat} {placement : Placement}

/-- At the place of a node stands its normal form, with references to the places of its children. -/
theorem getElem?_normalized_relink (coherent : placement.Coherent nodes) {index place : Nat}
    (isPlaced : placement.placeOf index = some place) :
    (normalized (relink nodes placement))[place]? =
      (normalized nodes)[index]?.map (Combinator.map (placeIn placement)) := by
  have isNode := Array.getElem?_eq_getElem (coherent.lt_size isPlaced)
  simp only [normalized, Array.getElem?_map, getElem?_relink coherent isPlaced isNode, isNode,
    Option.map_some, Option.some.injEq, Combinator.normalize_map]
  congr 1
  apply Combinator.normalize_congr
  intro child member
  rcases coherent.children isPlaced isNode child member with ⟨earlier, -, isEarlier⟩
  rw [placeIn_eq isEarlier, hiddenAt_relink coherent isEarlier]

/-- The nodes that a root leads to have been laid out by a walk. -/
structure Layout (nodes : Array Node) (root : Nat) (placement : Placement) : Prop where
  laidOut : linearize nodes root = .ok (relink nodes placement)
  walks : PostOrder nodes [root] (.start nodes.size) placement
  coherent : placement.Coherent nodes
  reaches_iff : ∀ {index : Nat},
    (∃ place, placement.placeOf index = some place) ↔ Reaches nodes root index
  root_last : placement.placeOf root = some (placement.order.size - 1)
  ordered : canonicalOrder (relink nodes placement) ((relink nodes placement).size - 1) =
    List.range (relink nodes placement).size

theorem exists_layout (backward : BackwardFrom nodes root) :
    ∃ placement, Layout nodes root placement := by
  rcases exists_linearize backward with ⟨placement, walks, laidOut⟩
  exact ⟨placement, laidOut, walks, (walks.coherent (.start nodes)).1, walks.exists_placeOf_iff,
    walks.placeOf_root, canonicalOrder_relink walks⟩

namespace Layout

variable {nodes' : Array Node} {root' : Nat} {placement' : Placement}

theorem inside (layout : Layout nodes root placement) : root < nodes.size :=
  layout.coherent.lt_size layout.root_last

theorem size_pos (layout : Layout nodes root placement) : 0 < (relink nodes placement).size := by
  have := layout.coherent.place_lt layout.root_last
  rw [size_relink]
  omega

theorem finish_eq (layout : Layout nodes root placement) :
    finish ⟨nodes⟩ root = Expression.ofNodes (relink nodes placement) := by
  rw [finish, size, if_pos layout.inside]
  exact congrArg (· >>= _) layout.laidOut

theorem exists_place (layout : Layout nodes root placement) {index : Nat}
    (reached : Reaches nodes root index) :
    placement.placeOf index = some (placeIn placement index) := by
  rcases layout.reaches_iff.mpr reached with ⟨place, isPlaced⟩
  rw [placeIn_eq isPlaced, isPlaced]

/-- Laying out renames the nodes that the root leads to. -/
theorem isomorphism (layout : Layout nodes root placement) {expression : Expression}
    (finished : finish ⟨nodes⟩ root = .ok expression) :
    Isomorphism nodes expression.nodes root expression.root (placeIn placement) := by
  have coherent := layout.coherent
  rw [layout.finish_eq] at finished
  have listed := (Expression.acceptable_of_ofNodes finished).1
  have sized : expression.size = placement.order.size := by
    rw [← size_relink nodes, ← size_normalized, ← listed]
    rfl
  constructor
  case bijOn =>
    simp only [expression.reaches_iff, sized]
    refine ⟨?_, ?_, ?_⟩
    · intro index reached
      exact coherent.place_lt (layout.exists_place reached)
    · intro index reached index' reached' same
      have isPlaced := (coherent.placeOf_iff _ _).mp (layout.exists_place reached)
      have isPlaced' := (coherent.placeOf_iff _ _).mp (layout.exists_place reached')
      rw [same, isPlaced'] at isPlaced
      exact (Option.some.inj isPlaced).symm
    · intro place inside
      have isPlaced := coherent.placeOf_getElem inside
      exact ⟨_, layout.reaches_iff.mp ⟨place, isPlaced⟩, placeIn_eq isPlaced⟩
  case root_eq =>
    rw [placeIn_eq layout.root_last, ← sized]
    rfl
  case node_eq =>
    intro index reached
    rw [expression.normalized_nodes, listed]
    exact getElem?_normalized_relink coherent (layout.exists_place reached)

theorem eq_error (layout : Layout nodes root placement) {error : Error}
    (fails : finish ⟨nodes⟩ root = .error error) :
    (∃ index, error = .hiddenChild index) ∨ error = .hiddenRoot ∨
      ∃ cause, error = .illTyped cause := by
  rw [layout.finish_eq] at fails
  exact Expression.ofNodes_eq_error (childrenFirst_relink layout.coherent) layout.size_pos
    layout.ordered fails

variable {rename : Nat → Nat}

theorem matching (layout : Layout nodes root placement) (layout' : Layout nodes' root' placement')
    (isomorphism : Isomorphism nodes nodes' root root' rename) :
    Matching nodes nodes' fun index index' => Reaches nodes root index ∧ rename index = index' where
  inside := fun ⟨reached, _⟩ => layout.coherent.lt_size (layout.exists_place reached)
  inside' := by
    rintro index _ ⟨reached, rfl⟩
    exact layout'.coherent.lt_size (layout'.exists_place (isomorphism.bijOn.mapsTo reached))
  children := by
    rintro index _ node node' ⟨reached, rfl⟩ isNode isNode'
    have sameNode := isomorphism.node_eq reached
    simp only [normalized, Array.getElem?_map, isNode, isNode', Option.map_some,
      Option.some.injEq] at sameNode
    have sameChildren : node'.children = node.children.map rename := by
      simpa using congrArg Combinator.children sameNode
    rw [sameChildren, List.forall₂_map_right_iff, List.forall₂_same]
    exact fun child member => ⟨.child reached isNode member, rfl⟩
  unique := by
    rintro index _ other _ ⟨reached, rfl⟩ ⟨reachedOther, rfl⟩
    exact ⟨congrArg rename, isomorphism.bijOn.injOn reached reachedOther⟩

/-- Renamed nodes are left one after another as they were under their old names. -/
theorem order_eq (layout : Layout nodes root placement) (layout' : Layout nodes' root' placement')
    (isomorphism : Isomorphism nodes nodes' root root' rename) :
    placement'.order = placement.order.map rename := by
  have orders := (layout.walks.alike (layout.matching layout' isomorphism) layout'.walks
    (.cons ⟨.root, isomorphism.root_eq⟩ .nil) .start (by simp [Placement.start])
    (by simp [Placement.start])).orders
  apply Array.toList_inj.mp
  rw [Array.toList_map, eq_comm, ← List.forall₂_eq_eq_eq, List.forall₂_map_left_iff]
  exact orders.imp fun _ _ matched => matched.2

theorem placeIn_rename (layout : Layout nodes root placement)
    (layout' : Layout nodes' root' placement')
    (isomorphism : Isomorphism nodes nodes' root root' rename) {index : Nat}
    (reached : Reaches nodes root index) :
    placement'.placeOf (rename index) = some (placeIn placement index) := by
  have isPlaced := (layout.coherent.placeOf_iff _ _).mp (layout.exists_place reached)
  rw [layout'.coherent.placeOf_iff, layout.order_eq layout' isomorphism, Array.getElem?_map, isPlaced,
    Option.map_some]

/-- Renamed nodes are laid out in the same way, but for choices that may be written as assertions. -/
theorem normalized_relink_eq (layout : Layout nodes root placement)
    (layout' : Layout nodes' root' placement')
    (isomorphism : Isomorphism nodes nodes' root root' rename) :
    normalized (relink nodes' placement') = normalized (relink nodes placement) := by
  have sizes : placement'.order.size = placement.order.size := by
    rw [layout.order_eq layout' isomorphism, Array.size_map]
  apply Array.ext_getElem?
  intro place
  rcases Nat.lt_or_ge place placement.order.size with inside | outside
  · have isPlaced := layout.coherent.placeOf_getElem inside
    have reached := layout.reaches_iff.mp ⟨place, isPlaced⟩
    have isPlaced' := layout.placeIn_rename layout' isomorphism reached
    rw [placeIn_eq isPlaced] at isPlaced'
    rw [getElem?_normalized_relink layout.coherent isPlaced,
      getElem?_normalized_relink layout'.coherent isPlaced', isomorphism.node_eq reached,
      Option.map_map, normalized, Array.getElem?_map]
    cases isNode : nodes[placement.order[place]]? with
    | none => rfl
    | some node =>
        simp only [Option.map_some, Option.some.injEq, Function.comp_apply, Combinator.map_map]
        apply Combinator.map_congr
        intro child member
        rw [Combinator.children_normalize] at member
        rw [Function.comp_apply]
        exact placeIn_eq (layout.placeIn_rename layout' isomorphism (.child reached isNode member))
  · rw [Array.getElem?_eq_none, Array.getElem?_eq_none]
    · rwa [size_normalized, size_relink]
    · rwa [size_normalized, size_relink, sizes]

theorem finish_eq_of_isomorphism (layout : Layout nodes root placement)
    (layout' : Layout nodes' root' placement')
    (isomorphism : Isomorphism nodes nodes' root root' rename) :
    finish ⟨nodes'⟩ root' = finish ⟨nodes⟩ root := by
  rw [layout.finish_eq, layout'.finish_eq,
    ← Expression.ofNodes_normalized (childrenFirst_relink layout.coherent),
    ← Expression.ofNodes_normalized (childrenFirst_relink layout'.coherent),
    layout.normalized_relink_eq layout' isomorphism]

end Layout

/-- The nodes of an expression stay where they are. -/
theorem finish_nodes (expression : Expression) :
    finish ⟨expression.nodes⟩ expression.root = .ok expression := by
  have childrenFirst : ChildrenFirst expression.nodes := expression.dag.childrenFirst
  have inside : expression.root < expression.nodes.size := expression.last.isLt
  rcases exists_layout (childrenFirst.backwardFrom inside) with ⟨placement, layout⟩
  have listed : placement.order = Array.range expression.size := by
    apply Array.toList_inj.mp
    rw [layout.walks.canonicalOrder_eq, Array.toList_range]
    exact expression.canonicalOrder_nodes
  have stays : ∀ index < expression.size, placement.placeOf index = some index := by
    intro index inside
    rw [layout.coherent.placeOf_iff, listed]
    simp [inside]
  have sameList : relink expression.nodes placement = expression.nodes := by
    apply Array.ext_getElem?
    intro place
    cases isNode : expression.nodes[place]? with
    | none =>
        rw [Array.getElem?_eq_none_iff] at isNode ⊢
        rw [size_relink, listed, Array.size_range]
        exact isNode
    | some node =>
        have inside : place < expression.size := (Array.getElem?_eq_some_iff.mp isNode).1
        rw [getElem?_relink layout.coherent (stays place inside) isNode, Option.some.injEq]
        refine Eq.trans (Combinator.map_congr ?_) (Combinator.map_id node)
        intro child member
        have earlier := childrenFirst place node isNode child member
        exact placeIn_eq (stays child (Nat.lt_trans earlier inside))
  rw [layout.finish_eq, sameList, expression.ofNodes_nodes]

/-- Nodes of which those below the root refer back are laid out in canonical order, and refused for
hidden nodes or for types only. The expression has the nodes that the root leads to, under the names of
their places. Other nodes that are the same but for their names give the same result, and the nodes of
an expression give that expression. -/
theorem finish_linearizes {nodes : Array Node} {root : Nat} (backward : BackwardFrom nodes root) :
    (∀ error, finish ⟨nodes⟩ root = .error error →
      (∃ index, error = .hiddenChild index) ∨ error = .hiddenRoot ∨
        ∃ cause, error = .illTyped cause) ∧
    (∀ expression, finish ⟨nodes⟩ root = .ok expression →
      normalized expression.nodes = expression.nodes ∧
        ∃ rename, Isomorphism nodes expression.nodes root expression.root rename ∧
          Set.BijOn rename {index | Reaches nodes root index} {index | index < expression.size}) ∧
    (∀ nodes' root' rename, BackwardFrom nodes' root' →
      Isomorphism nodes nodes' root root' rename →
        finish ⟨nodes'⟩ root' = finish ⟨nodes⟩ root) ∧
    ∀ expression : Expression, finish ⟨expression.nodes⟩ expression.root = .ok expression := by
  rcases exists_layout backward with ⟨placement, layout⟩
  refine ⟨fun error => layout.eq_error, ?_, ?_, finish_nodes⟩
  · intro expression finished
    have isomorphism := layout.isomorphism finished
    refine ⟨expression.normalized_nodes, _, isomorphism, ?_⟩
    have bijOn := isomorphism.bijOn
    simp only [expression.reaches_iff] at bijOn
    exact bijOn
  · intro nodes' root' rename backward' isomorphism
    rcases exists_layout backward' with ⟨placement', layout'⟩
    exact layout.finish_eq_of_isomorphism layout' isomorphism

/-- A choice with a hidden branch, beside a node that refers forward and that nothing refers to. -/
def strayPair : Builder :=
  ⟨#[.unit, .pair 5 7, .witness, .hidden .zero, .case 0 3, .comp 2 4]⟩

theorem backwardFrom_strayPair : BackwardFrom strayPair.nodes 5 := by
  have closed : ∀ index, (inside : index < strayPair.nodes.size) → index ≠ 1 →
      ∀ child ∈ (strayPair.nodes[index]).children, child < index ∧ child ≠ 1 := by
    decide
  have reached : ∀ {index}, Reaches strayPair.nodes 5 index → index ≠ 1 := by
    intro index reached
    induction reached with
    | root => decide
    | child _ isNode member ih =>
        rcases Array.getElem?_eq_some_iff.mp isNode with ⟨inside, rfl⟩
        exact (closed _ inside ih _ member).2
  refine ⟨by decide, ?_⟩
  intro index node isReached isNode child member
  rcases Array.getElem?_eq_some_iff.mp isNode with ⟨inside, rfl⟩
  exact (closed _ inside (reached isReached) _ member).1

/-- The choice is finished as an assertion, and the stray node does not matter. -/
theorem finish_linearizes_strayPair : BackwardFrom strayPair.nodes 5 ∧
    ∃ expression rename, strayPair.finish 5 = .ok expression ∧
      expression.nodes = #[.witness, .unit, .hidden .zero, .assertl 1 2, .comp 0 3] ∧
      Isomorphism strayPair.nodes expression.nodes 5 expression.root rename ∧
      BackwardFrom expression.nodes expression.root ∧
      finish ⟨expression.nodes⟩ expression.root = strayPair.finish 5 := by
  have linearizes := finish_linearizes backwardFrom_strayPair
  have finished : ∃ expression, strayPair.finish 5 = .ok expression ∧
      expression.nodes = #[.witness, .unit, .hidden .zero, .assertl 1 2, .comp 0 3] := ⟨_, rfl, rfl⟩
  rcases finished with ⟨expression, finished, listed⟩
  rcases linearizes.2.1 expression finished with ⟨-, rename, isomorphism, -⟩
  have backward : BackwardFrom expression.nodes expression.root :=
    ⟨expression.last.isLt, fun _ => expression.dag.childrenFirst _ _⟩
  exact ⟨backwardFrom_strayPair, expression, rename, finished, listed, isomorphism, backward,
    linearizes.2.2.1 _ _ rename backward isomorphism⟩

end Builder

end Simplicity
