import Simplicity.Proofs.Bounds
import Simplicity.Proofs.Expression.Building
import Simplicity.Root.Commitment

/-!
# Covering an expression

Nodes cover an expression if each of them stands for one of its nodes: it is a copy of it, or the
assertion of one of its branches, or hides it. Several nodes may stand for the same one, and some of
the nodes of the expression may have none. What is known of the expression carries over to the nodes
that cover it, by way of `origin`, which tells what a node stands for:

* the types of the expression are a typing of the nodes, so the types inferred for them are below;
* a node has the commitment root of what it stands for, since a hidden node has been given it;
* a node takes no more than what it stands for, since types are below and hidden nodes take nothing.
-/

namespace Simplicity

namespace Combinator

variable {ρ σ : Type}

/-- The rule of a settled node is about the arrows of those children that are not hidden. -/
theorem HasType.congr {node : Combinator ρ} {hidden : ρ → Bool} {arrows arrows' : ρ → Option Arrow}
    {arrow : Arrow} (settled : node.settled hidden = true)
    (agree : ∀ child ∈ node.children, hidden child = false → arrows child = arrows' child)
    (typed : (node.map arrows).HasType arrow) : (node.map arrows').HasType arrow := by
  cases node with
  | assertl left right =>
      simp only [Combinator.settled, Bool.and_eq_true, Bool.not_eq_true'] at settled
      simp only [map, mapMem, agree left (.head _) settled.1] at typed ⊢
      generalize arrows' left = kept at typed ⊢
      generalize arrows right = pruned at typed
      cases typed with
      | assertl => exact .assertl
  | assertr left right =>
      simp only [Combinator.settled, Bool.and_eq_true, Bool.not_eq_true'] at settled
      simp only [map, mapMem, agree right (.tail _ (.head _)) settled.2] at typed ⊢
      generalize arrows' right = kept at typed ⊢
      generalize arrows left = pruned at typed
      cases typed with
      | assertr => exact .assertr
  | _ =>
      rw [← map_congr fun child member => agree child member
        (hidden_eq_false_of_settled settled rfl member)]
      exact typed

end Combinator

/-- Arrows that satisfy the rules of the nodes that are not hidden, and give the root its type, are a
typing once they are taken away from the hidden nodes. -/
theorem Dag.exists_wellTyped {dag : Dag} (nonempty : 0 < dag.size)
    (rootVisible : hiddenAt dag.nodes (dag.size - 1) = false) {arrows : Nat → Option Arrow}
    (root : arrows (dag.size - 1) = some ⟨.unit, .unit⟩)
    (found : ∀ {index : Nat} {node : Node}, dag.nodes[index]? = some node →
      node.isHidden = false → ∃ arrow, arrows index = some arrow)
    (rule : ∀ {index : Nat} {node : Node} {arrow : Arrow}, dag.nodes[index]? = some node →
      node.isHidden = false → arrows index = some arrow → (node.map arrows).HasType arrow) :
    ∃ typing, WellTyped dag.nodes typing ∧ ∀ index arrow, arrowAt typing index = some arrow →
      arrows index = some arrow := by
  let typing : Array (Option Arrow) := Array.ofFn fun index : Fin dag.nodes.size =>
    if hiddenAt dag.nodes index then none else arrows index
  have entry : ∀ index, (inside : index < dag.nodes.size) → typing[index]? =
      some (if hiddenAt dag.nodes index then none else arrows index) := by
    intro index inside
    simp [typing, inside]
  have arrowAt_eq : ∀ index, index < dag.nodes.size → arrowAt typing index =
      if hiddenAt dag.nodes index then none else arrows index := by
    intro index inside
    rw [arrowAt, Array.getD_eq_getD_getElem?, entry index inside, Option.getD_some]
  have size_eq : typing.size = dag.nodes.size := Array.size_ofFn
  have before : ∀ index arrow, arrowAt typing index = some arrow →
      hiddenAt dag.nodes index = false ∧ arrows index = some arrow := by
    intro index arrow typed
    rw [arrowAt_eq index (size_eq ▸ Typing.lt_size_of_arrowAt typed)] at typed
    split at typed
    case isTrue => cases typed
    case isFalse visible => exact ⟨Bool.eq_false_iff.mpr visible, typed⟩
  refine ⟨typing, ⟨size_eq, ?_, ?_, ?_⟩, fun index arrow typed => (before index arrow typed).2⟩
  · intro index inside
    have isNode := Array.getElem?_eq_getElem inside
    rw [arrowAt_eq index inside, Typing.hiddenAt_eq isNode]
    cases visible : (dag.nodes[index]).isHidden with
    | true => simp
    | false =>
        rcases found isNode visible with ⟨arrow, isArrow⟩
        simp [isArrow]
  · have inside : dag.size - 1 < dag.nodes.size := Nat.sub_lt nonempty Nat.one_pos
    rw [Array.back?, size_eq]
    change typing[dag.size - 1]? = _
    rw [entry _ inside, rootVisible, root]
    simp
  · intro index inside arrow typed
    have isNode := Array.getElem?_eq_getElem inside
    rcases before index arrow typed with ⟨visible, isArrow⟩
    rw [Typing.hiddenAt_eq isNode] at visible
    apply (rule isNode visible isArrow).congr (dag.settled index inside)
    intro child member visibleChild
    have insideChild := Nat.lt_trans (dag.backward index inside child member) inside
    rw [arrowAt_eq child insideChild, visibleChild]
    simp

theorem Expression.resultAt_commitmentRoots {expression : Expression} {index : Nat} {node : Node}
    (isNode : expression.node? index = some node) :
    Dag.resultAt expression.commitmentRoots index =
      (node.map (Dag.resultAt expression.commitmentRoots)).commitment := by
  rcases Array.getElem?_eq_some_iff.mp isNode with ⟨inside, rfl⟩
  exact Dag.resultAt_fold inside

theorem Expression.commitmentRoot_eq (expression : Expression) :
    expression.commitmentRoot = Dag.resultAt expression.commitmentRoots expression.root :=
  (Dag.resultAt_eq _ expression.last.isLt).symm

namespace Builder

variable {nodes : Array Node} {root : Nat} {placement : Placement}

/-- Settled nodes make an expression if they have a typing in the order in which they are laid out. -/
theorem Layout.exists_finish (layout : Layout nodes root placement)
    (settled : ∀ {index : Nat} {node : Node}, Reaches nodes root index →
      nodes[index]? = some node → node.settled (hiddenAt nodes) = true)
    (visible : hiddenAt nodes root = false) :
    ∃ dag : Dag, dag.nodes = relink nodes placement ∧ 0 < dag.size ∧
      hiddenAt dag.nodes (dag.size - 1) = false ∧
      ∀ typing, WellTyped dag.nodes typing → ∃ expression : Expression,
        finish ⟨nodes⟩ root = .ok expression ∧ expression.dag = dag := by
  have coherent := layout.coherent
  have childrenFirst := childrenFirst_relink coherent
  have settledPlaces : ∀ place (inside : place < (relink nodes placement).size),
      ((relink nodes placement)[place]).settled (hiddenAt (relink nodes placement)) = true := by
    intro place inside
    rcases exists_node_of_getElem?_relink coherent (Array.getElem?_eq_getElem inside) with
      ⟨index, node, isPlaced, isNode, same⟩
    rw [same, Combinator.settled_map, ← settled (layout.reaches_iff.mp ⟨place, isPlaced⟩) isNode]
    apply Combinator.settled_congr
    intro child member
    rcases coherent.children isPlaced isNode child member with ⟨earlier, -, isEarlier⟩
    rw [placeIn_eq isEarlier, hiddenAt_relink coherent isEarlier]
  let dag : Dag := ⟨relink nodes placement, fun place inside =>
    childrenFirst place _ (Array.getElem?_eq_getElem inside), settledPlaces⟩
  have nonempty : 0 < dag.size := layout.size_pos
  have rootVisible : hiddenAt dag.nodes (dag.size - 1) = false := by
    change hiddenAt (relink nodes placement) ((relink nodes placement).size - 1) = false
    rw [size_relink, hiddenAt_relink coherent layout.root_last, visible]
  have ordered : checkOrder dag.nodes = .ok () :=
    (checkOrder_eq_ok_iff childrenFirst nonempty).mpr layout.ordered
  refine ⟨dag, rfl, nonempty, rootVisible, ?_⟩
  intro typing typed
  rcases Typing.inferArrows_least nonempty rootVisible with ⟨arrows, inferred, -⟩ | ⟨-, untypable⟩
  · refine ⟨⟨dag, arrows, nonempty, rootVisible, ordered, inferred⟩, ?_, rfl⟩
    have listed : Dag.ofNodes (relink nodes placement) = .ok dag := by
      have again := dag.ofNodes_map fun node => .inl (id_eq node)
      rwa [Array.map_id_fun, id_eq] at again
    rw [layout.finish_eq]
    exact (Expression.ofNodes_eq_ok_iff _ _).mpr listed
  · exact absurd ⟨typing, typed⟩ untypable

/-- What the node at a place stands for, if it is known what nodes stand for. -/
def sourceAt (source : Nat → Nat) (placement : Placement) (place : Nat) : Nat :=
  source (placement.order.getD place 0)

variable {source : Nat → Nat} {index place : Nat}

theorem sourceAt_eq (coherent : placement.Coherent nodes)
    (isPlaced : placement.placeOf index = some place) :
    sourceAt source placement place = source index := by
  rw [sourceAt, Array.getD_eq_getD_getElem?, (coherent.placeOf_iff index place).mp isPlaced,
    Option.getD_some]

theorem map_sourceAt (coherent : placement.Coherent nodes) {node : Node}
    (isPlaced : placement.placeOf index = some place) (isNode : nodes[index]? = some node) :
    (node.map (placeIn placement)).map (sourceAt source placement) = node.map source := by
  rw [Combinator.map_map]
  apply Combinator.map_congr
  intro child member
  rcases coherent.children isPlaced isNode child member with ⟨earlier, -, isEarlier⟩
  rw [Function.comp_apply, placeIn_eq isEarlier, sourceAt_eq coherent isEarlier]

end Builder

/-- One of the two branches of a choice. -/
inductive Branch where
  | left
  | right
  deriving DecidableEq, Repr

namespace Branch

variable {ρ : Type}

/-- The branch that is cut off when this one is kept. -/
def pruned : Branch → ρ → ρ → ρ
  | .left, _, second => second
  | .right, first, _ => first

/-- The assertion of the branch, with a hidden node in the place of the other one. -/
def assertion : Branch → ρ → ρ → (hidden : ρ) → Combinator ρ
  | .left, first, _, hidden => .assertl first hidden
  | .right, _, second, hidden => .assertr hidden second

@[simp]
theorem map_assertion {σ : Type} (keep : Branch) (f : ρ → σ) (first second hidden : ρ) :
    (keep.assertion first second hidden).map f =
      keep.assertion (f first) (f second) (f hidden) := by
  cases keep <;> rfl

theorem apply_pruned {σ : Type} (keep : Branch) (f : ρ → σ) (first second : ρ) :
    f (keep.pruned first second) = keep.pruned (f first) (f second) := by
  cases keep <;> rfl

theorem hasType_assertion (keep : Branch) {first second hidden : Option Arrow} {arrow : Arrow}
    (typed : (Combinator.case first second).HasType arrow) :
    (keep.assertion first second hidden).HasType arrow := by
  cases typed with
  | case =>
      cases keep with
      | left => exact .assertl
      | right => exact .assertr

theorem commitment_assertion (keep : Branch) (first second : Digest) :
    (keep.assertion first second (keep.pruned first second)).commitment =
      (Combinator.case first second).commitment := by
  cases keep <;> rfl

theorem boundsOf_assertion (keep : Branch) (expression : Expression) (index : Nat)
    (first second : Nat × Bounds) :
    expression.boundsOf index (keep.assertion first second (keep.pruned first second)) =
      expression.boundsOf index (.case first second) := by
  cases keep <;> rfl

end Branch

namespace Expression

variable {expression : Expression} {origin : Nat → Nat} {nodes : Array Node} {place : Nat} {node : Node}

/-- A node at a place stands for the node that `origin` gives, in one of three ways. -/
inductive StandsFor (expression : Expression) (origin : Nat → Nat) (place : Nat) : Node → Prop where
  | copy {node : Node} (isNode : expression.node? (origin place) = some (node.map origin)) :
      StandsFor expression origin place node
  | assertion {node : Node} {left right : Nat} (keep : Branch)
      (isChoice : expression.node? (origin place) = some (.case left right))
      (isAssertion : node.map origin = keep.assertion left right (keep.pruned left right)) :
      StandsFor expression origin place node
  | stump : StandsFor expression origin place
      (.hidden (Dag.resultAt expression.commitmentRoots (origin place)))

/-- Every node stands for one of the expression, and the last one for its root. -/
structure Covering (expression : Expression) (nodes : Array Node) (origin : Nat → Nat) : Prop where
  nonempty : 0 < nodes.size
  root : origin (nodes.size - 1) = expression.root
  standsFor : ∀ {place : Nat} {node : Node}, nodes[place]? = some node →
    expression.StandsFor origin place node

namespace Covering

theorem exists_arrow? (covering : expression.Covering nodes origin)
    (isNode : nodes[place]? = some node) (visible : node.isHidden = false) :
    ∃ arrow, expression.arrow? (origin place) = some arrow := by
  cases covering.standsFor isNode with
  | copy wasNode => exact Expression.exists_arrow? wasNode (by simpa using visible)
  | assertion _ isChoice _ => exact Expression.exists_arrow? isChoice rfl
  | stump => cases visible

/-- The rule of a node holds of the types of what its children stand for. -/
theorem hasType (covering : expression.Covering nodes origin) {arrow : Arrow}
    (isNode : nodes[place]? = some node) (visible : node.isHidden = false)
    (typed : expression.arrow? (origin place) = some arrow) :
    (node.map fun child => expression.arrow? (origin child)).HasType arrow := by
  have composed : (node.map fun child => expression.arrow? (origin child)) =
      (node.map origin).map expression.arrow? :=
    (Combinator.map_map expression.arrow? origin node).symm
  rw [composed]
  cases covering.standsFor isNode with
  | copy wasNode => exact Expression.hasType wasNode typed
  | assertion keep isChoice isAssertion =>
      rw [isAssertion, Branch.map_assertion]
      exact keep.hasType_assertion (Expression.hasType isChoice typed)
  | stump => cases visible

/-- The types of what the nodes stand for are a typing of the nodes. -/
theorem exists_wellTyped {dag : Dag} (covering : expression.Covering dag.nodes origin)
    (rootVisible : hiddenAt dag.nodes (dag.size - 1) = false) :
    ∃ typing, WellTyped dag.nodes typing ∧ ∀ place arrow, arrowAt typing place = some arrow →
      expression.arrow? (origin place) = some arrow := by
  have root : expression.arrow? (origin (dag.size - 1)) = some ⟨.unit, .unit⟩ := by
    rw [← expression.arrow?_root]
    exact congrArg expression.arrow? covering.root
  exact dag.exists_wellTyped covering.nonempty rootVisible root covering.exists_arrow? covering.hasType

section Expressions

variable {result : Expression}

theorem below (covering : expression.Covering result.nodes origin) {arrow : Arrow}
    (typed : result.arrow? place = some arrow) :
    ∃ other, expression.arrow? (origin place) = some other ∧ arrow.Below other := by
  rcases covering.exists_wellTyped result.visible with ⟨typing, wellTyped, before⟩
  rcases result.leastTyping.below typing wellTyped place arrow typed with ⟨other, found, below⟩
  exact ⟨other, before place other found, below⟩

theorem commitment_eq (covering : expression.Covering result.nodes origin)
    (inside : place < result.size) :
    Dag.resultAt result.commitmentRoots place =
      Dag.resultAt expression.commitmentRoots (origin place) := by
  induction place using Nat.strongRecOn with
  | ind place ih =>
      have isNode : result.node? place = some result.dag.nodes[place] :=
        Array.getElem?_eq_getElem inside
      have sameChildren : (result.dag.nodes[place]).map (Dag.resultAt result.commitmentRoots) =
          ((result.dag.nodes[place]).map origin).map
            (Dag.resultAt expression.commitmentRoots) := by
        rw [Combinator.map_map]
        apply Combinator.map_congr
        intro child member
        have earlier := result.dag.backward place inside child member
        exact ih child earlier (Nat.lt_trans earlier inside)
      rw [resultAt_commitmentRoots isNode, sameChildren]
      have standsFor := covering.standsFor isNode
      generalize result.dag.nodes[place] = node at standsFor
      cases standsFor with
      | copy wasNode => rw [resultAt_commitmentRoots wasNode]
      | assertion keep isChoice isAssertion =>
          rw [isAssertion, resultAt_commitmentRoots isChoice, Branch.map_assertion,
            keep.apply_pruned (Dag.resultAt _)]
          exact keep.commitment_assertion _ _
      | stump => rfl

theorem bounds_le (covering : expression.Covering result.nodes origin)
    {bounds : Vector Bounds expression.dag.nodes.size} {bounds' : Vector Bounds result.dag.nodes.size}
    (ran : expression.nodeBounds = .ok bounds) (ran' : result.nodeBounds = .ok bounds')
    (inside : place < result.size) :
    (Dag.resultAt bounds' place).Le (Dag.resultAt bounds (origin place)) := by
  induction place using Nat.strongRecOn with
  | ind place ih =>
      have isNode : result.node? place = some result.dag.nodes[place] :=
        Array.getElem?_eq_getElem inside
      have stepped' := boundsOf_eq_ok ran' isNode
      have children : ∀ child ∈ (result.dag.nodes[place]).children,
          (Dag.resultAt bounds' child).Le (Dag.resultAt bounds (origin child)) := by
        intro child member
        have earlier := result.dag.backward place inside child member
        exact ih child earlier (Nat.lt_trans earlier inside)
      have standsFor := covering.standsFor isNode
      generalize result.dag.nodes[place] = node at standsFor children stepped'
      cases standsFor with
      | copy wasNode =>
          exact boundsOf_le covering.below children (boundsOf_eq_ok ran wasNode) stepped'
      | assertion keep isChoice isAssertion =>
          apply boundsOf_le covering.below children _ stepped'
          rw [isAssertion, Branch.map_assertion,
            keep.apply_pruned fun child => (child, Dag.resultAt bounds child),
            Branch.boundsOf_assertion]
          exact boundsOf_eq_ok ran isChoice
      | stump =>
          rw [← Except.ok.inj stepped']
          exact Bounds.zero_le _

theorem commitmentRoot_eq (covering : expression.Covering result.nodes origin) :
    result.commitmentRoot = expression.commitmentRoot := by
  have root_eq : origin result.root = expression.root := covering.root
  have inside : result.root < result.size := result.last.isLt
  rw [Expression.commitmentRoot_eq, Expression.commitmentRoot_eq, covering.commitment_eq inside,
    root_eq]

theorem exists_bounds_le (covering : expression.Covering result.nodes origin) :
    ∃ bounds bounds', expression.bounds = .ok bounds ∧ result.bounds = .ok bounds' ∧
      bounds'.Le bounds := by
  have root_eq : origin result.root = expression.root := covering.root
  rcases expression.exists_nodeBounds with ⟨bounds, ran⟩
  rcases result.exists_nodeBounds with ⟨bounds', ran'⟩
  refine ⟨_, _, bounds_eq_ok ran, bounds_eq_ok ran', ?_⟩
  rw [← root_eq]
  exact covering.bounds_le ran ran' result.last.isLt

end Expressions

end Covering

end Expression

end Simplicity
