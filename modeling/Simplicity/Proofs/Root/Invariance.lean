import Simplicity.Proofs.Expression.Pruning
import Simplicity.Proofs.Root.Existence

/-!
# Roots and bounds do not depend on sharing

Commitment roots and fingerprints are computed by passes over the nodes. Such a pass gives every node
the result of a recursion over the tree below it, so nodes with the same tree have the same result, in
whatever lists they stand. The recursion for commitment roots looks at the outline of a tree only, and
the one for fingerprints at no types but those of witness nodes.

Annotated roots and bounds also depend on the types of the children. Here two lists are compared node
by node: nodes with the same tree have the same labels, and children with the same trees.
-/

namespace Simplicity

theorem Combinator.sizeOf_lt_of_mem {ρ : Type} [SizeOf ρ] {node : Combinator ρ} {child : ρ}
    (member : child ∈ node.children) : sizeOf child < sizeOf node := by
  cases node with
  | iden | unit | witness | hidden => cases member
  | injl only | injr only | take only | drop only =>
      simp only [children, List.mem_singleton] at member
      simp [member]
  | comp left right | case left right | assertl left right | assertr left right | pair left right
  | disconnect left right =>
      simp only [children, List.mem_cons, List.not_mem_nil, or_false] at member
      simp only [comp.sizeOf_spec, case.sizeOf_spec, assertl.sizeOf_spec, assertr.sizeOf_spec,
        pair.sizeOf_spec, disconnect.sizeOf_spec]
      rcases member with rfl | rfl <;> omega

namespace Unfolding

theorem sizeOf_lt_of_mem {arrow : Option Arrow} {value : Option BitString}
    {combinator : Combinator Unfolding} {child : Unfolding} (member : child ∈ combinator.children) :
    sizeOf child < sizeOf (node arrow value combinator) := by
  have := Combinator.sizeOf_lt_of_mem member
  rw [node.sizeOf_spec]
  omega

/-- Computes a result from the results of the subtrees, one position after another. -/
def fold {α : Type} (step : Option Arrow → Option BitString → Combinator α → α) : Unfolding → α
  | .node arrow value combinator =>
      step arrow value (combinator.mapMem fun child _ => child.fold step)
termination_by tree => sizeOf tree
decreasing_by exact sizeOf_lt_of_mem (by assumption)

theorem fold_node {α : Type} (step : Option Arrow → Option BitString → Combinator α → α)
    (arrow : Option Arrow) (value : Option BitString) (combinator : Combinator Unfolding) :
    (node arrow value combinator).fold step = step arrow value (combinator.map (fold step)) := by
  rw [fold]
  rfl

/-- A property of trees that passes from the subtrees to the tree holds of all trees. -/
theorem induction {motive : Unfolding → Prop}
    (node : ∀ arrow value combinator, (∀ child ∈ combinator.children, motive child) →
      motive (.node arrow value combinator)) : ∀ tree, motive tree
  | .node arrow value combinator =>
      node arrow value combinator fun child _ => induction node child
termination_by tree => sizeOf tree
decreasing_by exact sizeOf_lt_of_mem (by assumption)

/-- The combinator with a leaf in place of the right child of a delegation. -/
def detach : Combinator Unfolding → Combinator Unfolding
  | .disconnect left _ => .disconnect left (.node none none .unit)
  | combinator => combinator

/-- The tree without types and values, with assertions as the choices that they were pruned from, and
with leaves as the right children of delegations. -/
def outline : Unfolding → Unfolding :=
  fold fun _ _ combinator => .node none none (detach combinator.asChoice)

/-- A position without a type and a value, unless it is that of a witness node, which keeps its value
and target type. -/
def bare (arrow : Option Arrow) (value : Option BitString) : Combinator Unfolding → Unfolding
  | .witness => .node (arrow.map fun arrow => ⟨.unit, arrow.target⟩) value .witness
  | combinator => .node none none combinator

/-- The tree without types, except for the target types of witness nodes. -/
def untyped : Unfolding → Unfolding :=
  fold bare

/-- The commitment root of a tree. -/
def commitment : Unfolding → Digest :=
  fold fun _ _ combinator => combinator.commitment

/-- The fingerprint of a tree in which all witness nodes have a value and a type. -/
def fingerprint : Unfolding → Digest :=
  fold fun arrow value combinator => (Expression.fingerprintOf value arrow combinator).getD default

theorem commitment_detach_asChoice (combinator : Combinator Unfolding) :
    ((detach combinator.asChoice).map commitment).commitment =
      (combinator.map commitment).commitment := by
  cases combinator <;> rfl

/-- The commitment root of a tree is the one of its outline. -/
theorem commitment_outline (tree : Unfolding) : tree.outline.commitment = tree.commitment := by
  induction tree using induction with
  | node arrow value combinator ih =>
      have children : (combinator.map outline).map commitment = combinator.map commitment := by
        rw [Combinator.map_map]
        exact Combinator.map_congr ih
      calc (node arrow value combinator).outline.commitment
          = ((detach (combinator.map outline).asChoice).map commitment).commitment := by
            rw [outline, commitment, fold_node, fold_node]
        _ = ((combinator.map outline).map commitment).commitment := commitment_detach_asChoice _
        _ = (node arrow value combinator).commitment := by
            rw [children, commitment, fold_node]

theorem fingerprint_bare (arrow : Option Arrow) (value : Option BitString)
    (combinator : Combinator Unfolding) :
    (bare arrow value combinator).fingerprint =
      (Expression.fingerprintOf value arrow (combinator.map fingerprint)).getD default := by
  cases combinator with
  | witness =>
      rw [bare, fingerprint, fold_node]
      cases arrow <;> rfl
  | _ => exact fold_node _ none none _

/-- The fingerprint of a tree is the one of the tree without types. -/
theorem fingerprint_untyped (tree : Unfolding) : tree.untyped.fingerprint = tree.fingerprint := by
  induction tree using induction with
  | node arrow value combinator ih =>
      have children : (combinator.map untyped).map fingerprint = combinator.map fingerprint := by
        rw [Combinator.map_map]
        exact Combinator.map_congr ih
      calc (node arrow value combinator).untyped.fingerprint
          = (bare arrow value (combinator.map untyped)).fingerprint := by
            rw [untyped, fold_node]
        _ = _ := fingerprint_bare arrow value _
        _ = (node arrow value combinator).fingerprint := by
            rw [children, fingerprint, fold_node]

end Unfolding

namespace Expression

variable {expression expression' : Expression} {witness witness' : Witness} {index index' : Nat}

/-- A pass over the nodes computes what a recursion over the tree below a node does. -/
theorem fold_unfoldingAt {α : Type} {step : Option Arrow → Option BitString → Combinator α → α}
    {results : Nat → α}
    (stepped : ∀ index (inside : index < expression.dag.nodes.size),
      step (expression.visibleArrow? index) (expression.valueAt witness index)
        ((expression.dag.nodes[index]).map results) = results index)
    (inside : index < expression.dag.nodes.size) :
    (expression.unfoldingAt witness index).fold step = results index := by
  induction index using Nat.strongRecOn with
  | ind index ih =>
      rw [unfoldingAt_eq inside, Unfolding.fold_node, Combinator.map_map, ← stepped index inside]
      congr 1
      apply Combinator.map_congr
      intro child member
      have earlier := expression.dag.backward index inside child member
      exact ih child earlier (Nat.lt_trans earlier inside)

theorem commitmentRoot_eq_unfolding (expression : Expression) (witness : Witness) :
    expression.commitmentRoot =
      (expression.unfoldingAt witness expression.root).commitment := by
  have inside : expression.root < expression.dag.nodes.size := expression.last.isLt
  rw [expression.commitmentRoot_eq]
  refine (fold_unfoldingAt ?_ inside).symm
  intro index inside
  exact (resultAt_commitmentRoots (Array.getElem?_eq_getElem inside)).symm

/-- The identity root is the fingerprint of the tree, bound to the type that programs have. -/
theorem identityRoot_eq_unfolding (counted : witness.size = expression.witnessNodes.length) :
    expression.identityRoot witness =
      .ok (bindArrow (expression.unfoldingAt witness expression.root).fingerprint
        ⟨.unit, .unit⟩) := by
  have inside : expression.root < expression.dag.nodes.size := expression.last.isLt
  rcases exists_fingerprints counted with ⟨prints, printed⟩
  have print_eq : (expression.unfoldingAt witness expression.root).fingerprint =
      prints.get expression.last := by
    rw [get_last]
    refine fold_unfoldingAt ?_ inside
    intro index inside
    rw [fingerprintOf_of_fingerprints printed inside, Option.getD_some]
  rw [identityRoot, Witness.checkCount_of_counted counted, printed, print_eq,
    arrow_eq_ok_iff.mpr expression.arrow?_root]
  rfl

/-- The nodes without an arrow are the hidden ones. -/
theorem visibleArrow?_eq_arrow? (inside : index < expression.dag.nodes.size) :
    expression.visibleArrow? index = expression.arrow? index := by
  rw [visibleArrow?]
  split
  case isTrue isHidden =>
      exact ((expression.wellTyped.hidden_iff index inside).mpr isHidden).symm
  case isFalse => rfl

/-- If the result of a node is determined by its labels and by the arrows and results of its children,
then nodes with the same tree have the same result. -/
theorem result_eq_of_unfoldingAt_eq {α : Type} {results results' : Nat → α}
    (determined : ∀ index index' (inside : index < expression.dag.nodes.size)
      (inside' : index' < expression'.dag.nodes.size),
      expression.arrow? index = expression'.arrow? index' →
      expression.valueAt witness index = expression'.valueAt witness' index' →
      (expression.dag.nodes[index]).map (fun child => (expression.arrow? child, results child)) =
        (expression'.dag.nodes[index']).map
          (fun child => (expression'.arrow? child, results' child)) →
      results index = results' index')
    (inside : index < expression.dag.nodes.size) (inside' : index' < expression'.dag.nodes.size)
    (same : expression.unfoldingAt witness index = expression'.unfoldingAt witness' index') :
    results index = results' index' := by
  have arrow_eq : ∀ {index index'} (inside : index < expression.dag.nodes.size)
      (inside' : index' < expression'.dag.nodes.size),
      expression.unfoldingAt witness index = expression'.unfoldingAt witness' index' →
        expression.arrow? index = expression'.arrow? index' := by
    intro index index' inside inside' same
    rw [← visibleArrow?_eq_arrow? inside, ← visibleArrow?_eq_arrow? inside']
    exact (eq_of_unfoldingAt_eq inside inside' same).1
  -- The children come earlier in both lists, but one node of the first list may have the tree of many
  -- nodes of the second, so the index there is not fixed.
  induction index using Nat.strongRecOn generalizing index' with
  | ind index ih =>
      rcases eq_of_unfoldingAt_eq inside inside' same with ⟨-, sameValue, sameShape⟩
      apply determined index index' inside inside' (arrow_eq inside inside' same) sameValue
      apply Combinator.map_eq_map_of_map_eq sameShape
      intro child member child' member' sameChild
      have earlier := expression.dag.backward index inside child member
      have earlier' := expression'.dag.backward index' inside' child' member'
      have insideChild := Nat.lt_trans earlier inside
      have insideChild' := Nat.lt_trans earlier' inside'
      exact Prod.ext (arrow_eq insideChild insideChild' sameChild)
        (ih child earlier insideChild insideChild' sameChild)

/-- What a root commits to is determined by the labels of the node and by the arrows and roots of its
children. -/
theorem contentAt_eq_of_labels_eq {assigned assigned' : Nat → Digest}
    (inside : index < expression.dag.nodes.size) (inside' : index' < expression'.dag.nodes.size)
    (sameArrow : expression.arrow? index = expression'.arrow? index')
    (sameValue : expression.valueAt witness index = expression'.valueAt witness' index')
    (sameShape :
      (expression.dag.nodes[index]).map (fun child => (expression.arrow? child, assigned child)) =
        (expression'.dag.nodes[index']).map
          (fun child => (expression'.arrow? child, assigned' child))) :
    expression.contentAt witness assigned index =
      expression'.contentAt witness' assigned' index' := by
  have found : expression.node? index = some expression.dag.nodes[index] :=
    Array.getElem?_eq_getElem inside
  have found' : expression'.node? index' = some expression'.dag.nodes[index'] :=
    Array.getElem?_eq_getElem inside'
  have sameTag := congrArg Combinator.tag sameShape
  have sameArrows := congrArg (Combinator.map Prod.fst) sameShape
  have sameRoots := congrArg (fun node => (node.map Prod.snd).children) sameShape
  simp only [Combinator.tag_map] at sameTag
  simp only [Combinator.map_map, Function.comp_def] at sameArrows
  simp only [Combinator.map_map, Combinator.children_map, Function.comp_def] at sameRoots
  rw [← visibleArrow?_eq_arrow? inside, ← visibleArrow?_eq_arrow? inside'] at sameArrow
  simp only [contentAt, found, found', sameArrow, sameValue, sameTag, sameArrows, sameRoots,
    Option.bind_eq_bind, Option.bind_some]

/-- Nodes with the same tree have the same annotated root. -/
theorem annotatedRoot_eq_of_unfoldingAt_eq {roots : Vector Digest expression.dag.nodes.size}
    {roots' : Vector Digest expression'.dag.nodes.size}
    (ran : expression.annotatedRoots witness = .ok roots)
    (ran' : expression'.annotatedRoots witness' = .ok roots')
    (inside : index < expression.dag.nodes.size) (inside' : index' < expression'.dag.nodes.size)
    (same : expression.unfoldingAt witness index = expression'.unfoldingAt witness' index') :
    Dag.resultAt roots index = Dag.resultAt roots' index' := by
  refine result_eq_of_unfoldingAt_eq ?_ inside inside' same
  intro index index' inside inside' sameArrow sameValue sameShape
  have sameKind := congrArg Combinator.isHidden sameShape
  simp only [Combinator.isHidden_map] at sameKind
  cases visible : (expression.dag.nodes[index]).isHidden with
  | true =>
      rcases Combinator.exists_of_isHidden visible with ⟨root, isHidden⟩
      rcases Combinator.exists_of_isHidden (sameKind ▸ visible) with ⟨root', isHidden'⟩
      rw [isHidden, isHidden'] at sameShape
      cases sameShape
      rw [root_of_hidden ran inside isHidden, root_of_hidden ran' inside' isHidden']
  | false =>
      rcases exists_contentAt ran inside visible with ⟨content, annotated, -, made, -⟩
      rcases exists_contentAt ran' inside' (sameKind ▸ visible) with
        ⟨content', annotated', -, made', -⟩
      rw [contentAt_eq_of_labels_eq inside inside' sameArrow sameValue sameShape, annotated']
        at annotated
      cases annotated
      rw [made, made']

/-- The bounds of a node are determined by its arrow and by the arrows and bounds of its children. -/
theorem boundsOf_eq_of_labels_eq {node node' : Combinator (Nat × Bounds)} {bounds bounds' : Bounds}
    (sameArrow : expression.arrow? index = expression'.arrow? index')
    (sameShape : node.map (fun child => (expression.arrow? child.1, child.2)) =
      node'.map fun child => (expression'.arrow? child.1, child.2))
    (ran : expression.boundsOf index node = .ok bounds)
    (ran' : expression'.boundsOf index' node' = .ok bounds') : bounds = bounds' := by
  have arrow_eq : ∀ {index index' arrow arrow'},
      expression.arrow? index = expression'.arrow? index' → expression.arrow index = .ok arrow →
        expression'.arrow index' = .ok arrow' → arrow = arrow' := by
    intro index index' arrow arrow' same found found'
    rw [arrow_eq_ok_iff.mp found, arrow_eq_ok_iff.mp found'] at same
    exact Option.some.inj same
  -- Combinators of different kinds are never labelled alike, so the kind of `node` is also that of
  -- `node'`.
  cases node with
  | hidden _ | unit =>
      cases node' <;> cases sameShape
      cases ran
      cases ran'
      rfl
  | iden | witness =>
      cases node' <;> cases sameShape
      rcases exists_ok_of_bind ran with ⟨arrow, found, ⟨⟩⟩
      rcases exists_ok_of_bind ran' with ⟨arrow', found', ⟨⟩⟩
      cases arrow_eq sameArrow found found'
      rfl
  | injl child | injr child | take child | drop child =>
      cases node' <;> injection sameShape
      rename_i sameChild
      cases ran
      cases ran'
      rw [(Prod.mk.inj sameChild).2]
  | pair left right | case left right | assertl left right | assertr left right =>
      cases node' <;> injection sameShape
      rename_i sameLeft sameRight
      cases ran
      cases ran'
      rw [(Prod.mk.inj sameLeft).2, (Prod.mk.inj sameRight).2]
  | comp left right | disconnect left right =>
      cases node' <;> injection sameShape
      rename_i sameLeft sameRight
      rcases exists_ok_of_bind ran with ⟨arrow, found, ⟨⟩⟩
      rcases exists_ok_of_bind ran' with ⟨arrow', found', ⟨⟩⟩
      cases arrow_eq (Prod.mk.inj sameLeft).1 found found'
      rw [(Prod.mk.inj sameLeft).2, (Prod.mk.inj sameRight).2]

/-- Nodes with the same tree have the same bounds. -/
theorem bounds_eq_of_unfoldingAt_eq {results : Vector Bounds expression.dag.nodes.size}
    {results' : Vector Bounds expression'.dag.nodes.size} (ran : expression.nodeBounds = .ok results)
    (ran' : expression'.nodeBounds = .ok results')
    (inside : index < expression.dag.nodes.size) (inside' : index' < expression'.dag.nodes.size)
    (same : expression.unfoldingAt witness index = expression'.unfoldingAt witness' index') :
    Dag.resultAt results index = Dag.resultAt results' index' := by
  refine result_eq_of_unfoldingAt_eq ?_ inside inside' same
  intro index index' inside inside' sameArrow _ sameShape
  refine boundsOf_eq_of_labels_eq sameArrow ?_
    (boundsOf_eq_ok ran (Array.getElem?_eq_getElem inside))
    (boundsOf_eq_ok ran' (Array.getElem?_eq_getElem inside'))
  rw [Combinator.map_map, Combinator.map_map]
  exact sameShape

/-- Roots and bounds depend on the tree of an expression only, however the nodes are shared: the
commitment root on its outline, the identity root on the tree without types but those of witness
nodes, and the annotated root and the bounds on the tree with all its labels. -/
theorem roots_eq_of_unfolding_eq (expression expression' : Expression) (witness witness' : Witness)
    (counted : witness.size = expression.witnessNodes.length)
    (counted' : witness'.size = expression'.witnessNodes.length) :
    let tree := expression.unfoldingAt witness expression.root
    let tree' := expression'.unfoldingAt witness' expression'.root
    (tree.outline = tree'.outline → expression.commitmentRoot = expression'.commitmentRoot) ∧
    (tree.untyped = tree'.untyped →
      ∃ root, expression.identityRoot witness = .ok root ∧
        expression'.identityRoot witness' = .ok root) ∧
    (tree = tree' →
      (∃ root, expression.annotatedRoot witness = .ok root ∧
        expression'.annotatedRoot witness' = .ok root) ∧
      ∃ bounds, expression.bounds = .ok bounds ∧ expression'.bounds = .ok bounds) := by
  have inside : expression.root < expression.dag.nodes.size := expression.last.isLt
  have inside' : expression'.root < expression'.dag.nodes.size := expression'.last.isLt
  intro tree tree'
  refine ⟨?_, ?_, ?_⟩
  · intro same
    rw [expression.commitmentRoot_eq_unfolding witness,
      expression'.commitmentRoot_eq_unfolding witness', ← Unfolding.commitment_outline,
      ← Unfolding.commitment_outline tree', same]
  · intro same
    refine ⟨_, identityRoot_eq_unfolding counted, ?_⟩
    rw [identityRoot_eq_unfolding counted', ← Unfolding.fingerprint_untyped,
      ← Unfolding.fingerprint_untyped tree, same]
  · intro same
    rcases exists_annotatedRoots counted with ⟨roots, ran⟩
    rcases exists_annotatedRoots counted' with ⟨roots', ran'⟩
    rcases expression.exists_nodeBounds with ⟨bounds, bounded⟩
    rcases expression'.exists_nodeBounds with ⟨bounds', bounded'⟩
    refine ⟨⟨_, annotatedRoot_eq_ok ran, ?_⟩, ⟨_, bounds_eq_ok bounded, ?_⟩⟩
    · rw [annotatedRoot_eq_ok ran', annotatedRoot_eq_of_unfoldingAt_eq ran ran' inside inside' same]
    · rw [bounds_eq_ok bounded', bounds_eq_of_unfoldingAt_eq bounded bounded' inside inside' same]

/-- A pair whose components are the same witness node. -/
def sharedPair : Expression where
  dag := ⟨#[.witness, .pair 0 0, .unit, .comp 1 2], by decide, by decide⟩
  arrows := #[some ⟨.unit, .unit⟩, some ⟨.unit, .prod .unit .unit⟩, some ⟨.prod .unit .unit, .unit⟩,
    some ⟨.unit, .unit⟩]
  nonempty := by decide
  visible := by decide
  ordered := rfl
  typed := rfl

/-- A pair whose components are two witness nodes. -/
def unsharedPair : Expression where
  dag := ⟨#[.witness, .witness, .pair 0 1, .unit, .comp 2 3], by decide, by decide⟩
  arrows := #[some ⟨.unit, .unit⟩, some ⟨.unit, .unit⟩, some ⟨.unit, .prod .unit .unit⟩,
    some ⟨.prod .unit .unit, .unit⟩, some ⟨.unit, .unit⟩]
  nonempty := by decide
  visible := by decide
  ordered := rfl
  typed := rfl

theorem unfoldingAt_sharedPair :
    sharedPair.unfoldingAt ⟨[.empty]⟩ 3 = unsharedPair.unfoldingAt ⟨[.empty, .empty]⟩ 4 := by
  have first : sharedPair.unfoldingAt ⟨[.empty]⟩ 0 =
      unsharedPair.unfoldingAt ⟨[.empty, .empty]⟩ 0 := by
    rw [unfoldingAt_eq (by decide), unfoldingAt_eq (by decide)]
    rfl
  have second : sharedPair.unfoldingAt ⟨[.empty]⟩ 0 =
      unsharedPair.unfoldingAt ⟨[.empty, .empty]⟩ 1 := by
    rw [unfoldingAt_eq (by decide), unfoldingAt_eq (by decide)]
    rfl
  have pair : sharedPair.unfoldingAt ⟨[.empty]⟩ 1 =
      unsharedPair.unfoldingAt ⟨[.empty, .empty]⟩ 2 := by
    rw [unfoldingAt_eq (by decide), unfoldingAt_eq (by decide)]
    exact congrArg₂ (fun left right => Unfolding.node _ none (.pair left right)) first second
  have unit : sharedPair.unfoldingAt ⟨[.empty]⟩ 2 =
      unsharedPair.unfoldingAt ⟨[.empty, .empty]⟩ 3 := by
    rw [unfoldingAt_eq (by decide), unfoldingAt_eq (by decide)]
    rfl
  rw [unfoldingAt_eq (by decide), unfoldingAt_eq (by decide)]
  exact congrArg₂ (fun left right => Unfolding.node _ none (.comp left right)) pair unit

/-- The roots and bounds of a pair do not tell whether its components are shared. -/
theorem roots_eq_of_unfolding_eq_sharedPair :
    sharedPair.commitmentRoot = unsharedPair.commitmentRoot ∧
    (∃ root, sharedPair.identityRoot ⟨[.empty]⟩ = .ok root ∧
      unsharedPair.identityRoot ⟨[.empty, .empty]⟩ = .ok root) ∧
    (∃ root, sharedPair.annotatedRoot ⟨[.empty]⟩ = .ok root ∧
      unsharedPair.annotatedRoot ⟨[.empty, .empty]⟩ = .ok root) ∧
    ∃ bounds, sharedPair.bounds = .ok bounds ∧ unsharedPair.bounds = .ok bounds := by
  have same := unfoldingAt_sharedPair
  rcases roots_eq_of_unfolding_eq sharedPair unsharedPair ⟨[.empty]⟩ ⟨[.empty, .empty]⟩ rfl rfl with
    ⟨commitment, identity, annotated⟩
  exact ⟨commitment (congrArg _ same), identity (congrArg _ same), annotated same⟩

end Expression

end Simplicity
