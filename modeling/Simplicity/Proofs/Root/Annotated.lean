import Simplicity.Proofs.Expression.Arrows
import Simplicity.Proofs.Ty.Root
import Simplicity.Proofs.Unfolding

/-!
# What annotated roots commit to

The annotated root of a node absorbs the roots of the types that stand for the type variables of its
typing rule, the digest of its value if it is a witness node, and the roots of its children. The
state that it starts from tells the combinator.

The combinator and these types determine the type of the node, although some combinators do not
commit to all of it. So if the compression function has no collision on the way, everything that the
unfolding of a node is labelled with can be read off its annotated root: which of the children are
hidden is known from the combinator, and the root of a hidden child is the one that it carries.
-/

namespace Simplicity

namespace Combinator

/-- The types that stand for the variables of the typing rule of a combinator, given the arrows of
its children. -/
def instances : Combinator (Option Arrow) → Arrow → List Ty
  | .iden, ⟨a, _⟩ | .unit, ⟨a, _⟩ => [a]
  | .injl _, ⟨a, .sum b c⟩ | .injr _, ⟨a, .sum b c⟩ => [a, b, c]
  | .take _, ⟨.prod a b, c⟩ | .drop _, ⟨.prod a b, c⟩ => [a, b, c]
  | .comp (some ⟨_, b⟩) _, ⟨a, c⟩ => [a, b, c]
  | .case _ _, ⟨.prod (.sum a b) c, d⟩ | .assertl _ _, ⟨.prod (.sum a b) c, d⟩
  | .assertr _ _, ⟨.prod (.sum a b) c, d⟩ => [a, b, c, d]
  | .pair _ _, ⟨a, .prod b c⟩ => [a, b, c]
  | .disconnect (some ⟨_, .prod b _⟩) (some ⟨c, d⟩), ⟨a, _⟩ => [a, b, c, d]
  | .witness, ⟨a, b⟩ => [a, b]
  | _, _ => []

/-- The arrow of a combinator, made of the types that stand for the variables of its rule. -/
def Tag.arrowOf : Tag → List Ty → Option Arrow
  | .iden, [a] => some ⟨a, a⟩
  | .unit, [a] => some ⟨a, .unit⟩
  | .injl, [a, b, c] | .injr, [a, b, c] => some ⟨a, .sum b c⟩
  | .take, [a, b, c] | .drop, [a, b, c] => some ⟨.prod a b, c⟩
  | .comp, [a, _, c] => some ⟨a, c⟩
  | .case, [a, b, c, d] | .assertl, [a, b, c, d] | .assertr, [a, b, c, d] =>
      some ⟨.prod (.sum a b) c, d⟩
  | .pair, [a, b, c] => some ⟨a, .prod b c⟩
  | .disconnect, [a, b, _, d] => some ⟨a, .prod b d⟩
  | .witness, [a, b] => some ⟨a, b⟩
  | _, _ => none

/-- How many variables the typing rule of a combinator has. -/
def Tag.typeCount : Tag → Nat
  | .hidden => 0
  | .iden | .unit => 1
  | .witness => 2
  | .injl | .injr | .take | .drop | .comp | .pair => 3
  | .case | .assertl | .assertr | .disconnect => 4

/-- Which children of a settled combinator are hidden. -/
def Tag.hiddenChildren : Tag → List Bool
  | .iden | .unit | .witness | .hidden => []
  | .injl | .injr | .take | .drop => [false]
  | .comp | .case | .pair | .disconnect => [false, false]
  | .assertl => [false, true]
  | .assertr => [true, false]

theorem arrowOf_instances {node : Combinator (Option Arrow)} {arrow : Arrow}
    (typed : node.HasType arrow) : node.tag.arrowOf (node.instances arrow) = some arrow := by
  cases typed <;> rfl

theorem length_instances {node : Combinator (Option Arrow)} {arrow : Arrow}
    (typed : node.HasType arrow) : (node.instances arrow).length = node.tag.typeCount := by
  cases typed <;> rfl

theorem map_hidden_of_settled {ρ : Type} {hidden : ρ → Bool} {node : Combinator ρ}
    (settled : node.settled hidden = true) :
    node.children.map hidden = node.tag.hiddenChildren := by
  cases node <;> simp_all [Combinator.settled, children, tag, Tag.hiddenChildren]

theorem map_eq_map_of_tag_eq {ρ ρ' σ : Type} {node : Combinator ρ} {node' : Combinator ρ'}
    {f : ρ → σ} {f' : ρ' → σ} (sameTag : node.tag = node'.tag) (visible : node.isHidden = false)
    (same : node.children.map f = node'.children.map f') : node.map f = node'.map f' := by
  cases node <;> cases node' <;> simp_all [tag, children, map, mapMem, isHidden]

theorem exists_of_isHidden {ρ : Type} {node : Combinator ρ} (isHidden : node.isHidden = true) :
    ∃ root, node = .hidden root := by
  cases node with
  | hidden root => exact ⟨root, rfl⟩
  | _ => cases isHidden

theorem Tag.name_injective {tag tag' : Tag} (same : tag.name = tag'.name) : tag = tag' := by
  revert same
  cases tag <;> cases tag' <;> decide

end Combinator

theorem RootState.annotated_eq (tag : Combinator.Tag) :
    RootState.annotated tag = domainState "Annotated" tag.name := by
  have found : Combinator.Tag.all[tag.index.val] = tag := tag.get_all_index
  simp only [annotated, annotatedTable, table, Fin.getElem_fin, Vector.getElem_map, found]

/-- What the annotated root of a node commits to. -/
structure RootContent where
  tag : Combinator.Tag
  /-- The types that stand for the variables of the typing rule. -/
  types : List Ty
  value : Option BitString
  /-- The roots of the children. -/
  roots : List Digest

namespace RootContent

variable {content content' : RootContent}

def absorbed (content : RootContent) : List Digest :=
  content.types.map Ty.root ++
    (content.value.toList.map Sha256.hash ++ content.roots)

def root (content : RootContent) : Digest :=
  Sha256.run (rootBlocks "Annotated" content.tag.name content.absorbed)

/-- The applications of the compression function that make the root, those that make the roots of
the children apart. -/
def trail (content : RootContent) : List (Digest × Block) :=
  rootTrail "Annotated" content.tag.name content.absorbed ++
    (content.types.flatMap Ty.trail ++
      content.value.toList.flatMap fun bits => Sha256.trail (Sha256.blocks (Sha256.pad bits)))

/-- There are as many types, values and children as the combinator asks for. -/
structure Regular (content : RootContent) : Prop where
  types : content.types.length = content.tag.typeCount
  value : content.value.isSome = (content.tag == .witness)
  roots : content.roots.length = content.tag.hiddenChildren.length

theorem types_eq_of_map_root_eq {applications : List (Digest × Block)}
    (free : Sha256.CollisionFree applications) {types types' : List Ty}
    (within : types.flatMap Ty.trail ⊆ applications)
    (within' : types'.flatMap Ty.trail ⊆ applications)
    (same : types.map Ty.root = types'.map Ty.root) : types = types' := by
  induction types generalizing types' with
  | nil => exact (List.map_eq_nil_iff.mp same.symm).symm
  | cons ty rest ih =>
      rcases types' with _ | ⟨ty', rest'⟩
      · cases same
      · rw [List.flatMap_cons, List.append_subset] at within within'
        rw [List.map_cons, List.map_cons, List.cons.injEq] at same
        rw [Ty.root_injective free within.1 within'.1 same.1, ih within.2 within'.2 same.2]

/-- All that a root commits to can be read off it. -/
theorem eq_of_root_eq {applications : List (Digest × Block)}
    (free : Sha256.CollisionFree applications) (regular : content.Regular)
    (regular' : content'.Regular) (within : content.trail ⊆ applications)
    (within' : content'.trail ⊆ applications) (same : content.root = content'.root) :
    content = content' := by
  rcases content with ⟨tag, types, value, roots⟩
  rcases content' with ⟨tag', types', value', roots'⟩
  simp only [trail, List.append_subset] at within within'
  rcases rootBlocks_injective free within.1 within'.1 same with ⟨sameName, sameBlocks⟩
  cases Combinator.Tag.name_injective sameName
  have sameTypes : types.length = types'.length := regular.types.trans regular'.types.symm
  have sameValues : value.toList.length = value'.toList.length := by
    have sameSome : value.isSome = value'.isSome := regular.value.trans regular'.value.symm
    cases value <;> cases value' <;> simp_all
  have sameRoots : roots.length = roots'.length := regular.roots.trans regular'.roots.symm
  -- The tag fixes how many digests of each kind there are, so the list can be cut where they meet.
  have sameDigests := Digest.blocks_injective (by simp [absorbed]; omega) sameBlocks
  rcases List.append_inj sameDigests (by simpa using sameTypes) with ⟨typeRoots, others⟩
  rcases List.append_inj others (by simpa using sameValues) with ⟨valueRoots, rfl⟩
  rw [types_eq_of_map_root_eq free within.2.1 within'.2.1 typeRoots]
  cases value with
  | none =>
      cases value' with
      | none => rfl
      | some bits' => cases sameValues
  | some bits =>
      cases value' with
      | none => cases sameValues
      | some bits' =>
          have sameBits := Sha256.hash_injective free (by simpa using within.2.2)
            (by simpa using within'.2.2) (List.cons.inj valueRoots).1
          rw [sameBits]

end RootContent

theorem Witness.exists_toList_spreadOver (nodes : List Node) (values : List BitString)
    (labels : Array (Option BitString)) :
    ∃ added, (spreadOver nodes values labels).toList = labels.toList ++ added ∧
      List.Forall₂ (fun node label => Combinator.isWitness node = false → label = none) nodes
        added := by
  induction nodes generalizing values labels with
  | nil => exact ⟨[], (List.append_nil _).symm, .nil⟩
  | cons node rest ih =>
      rw [spreadOver]
      split
      case isTrue isWitness =>
        rcases ih values.tail (labels.push values.head?) with ⟨added, listed, labelled⟩
        refine ⟨values.head? :: added, by simp [listed], .cons ?_ labelled⟩
        intro notWitness
        rw [isWitness] at notWitness
        cases notWitness
      case isFalse =>
        rcases ih values (labels.push none) with ⟨added, listed, labelled⟩
        exact ⟨none :: added, by simp [listed], .cons (fun _ => rfl) labelled⟩

namespace Expression

variable {expression expression' : Expression} {witness witness' : Witness} {index index' : Nat}

/-- Only witness nodes have a value. -/
theorem valueAt_eq_none (inside : index < expression.dag.nodes.size)
    (notWitness : (expression.dag.nodes[index]).isWitness = false) :
    expression.valueAt witness index = none := by
  rcases Witness.exists_toList_spreadOver expression.nodes.toList witness.values #[] with
    ⟨added, listed, labelled⟩
  rw [List.forall₂_iff_get] at labelled
  have listed' : (witness.spread expression).toList = added := listed
  have insideAdded : index < added.length := labelled.1 ▸ inside
  have label := labelled.2 index inside insideAdded notWitness
  rw [valueAt, Array.getD_eq_getD_getElem?, ← Array.getElem?_toList, listed',
    List.getElem?_eq_getElem insideAdded, Option.getD_some]
  exact label

/-- What the root of the node at an index commits to, if it is not hidden, when the roots of its
children are given. -/
def contentAt (expression : Expression) (witness : Witness) (roots : Nat → Digest)
    (index : Nat) : Option RootContent := do
  let node ← expression.node? index
  let arrow ← expression.visibleArrow? index
  return {
    tag := node.tag
    types := (node.map expression.arrow?).instances arrow
    value := expression.valueAt witness index
    roots := node.children.map roots }

/-- The applications of the compression function that make the annotated roots of all nodes. -/
def annotatedTrail (expression : Expression) (witness : Witness) : List (Digest × Block) :=
  match expression.annotatedRoots witness with
  | .error _ => []
  | .ok roots =>
      (List.range expression.size).flatMap fun index =>
        (expression.contentAt witness (Dag.resultAt roots) index).toList.flatMap RootContent.trail

/-- The annotated root of a node is made of what it commits to. -/
theorem annotate_eq {arrow : Arrow} {node : Combinator (Nat × Digest)} {root : Digest}
    (typed : (node.map fun child => expression.arrow? child.1).HasType arrow)
    (unlabelled : node.isWitness = false → expression.valueAt witness index = none)
    (ran : expression.annotate witness (witness.spread expression) index arrow node = .ok root) :
    (expression.valueAt witness index).isSome = (node.tag == .witness) ∧
      root = RootContent.root {
        tag := node.tag
        types := (node.map fun child => expression.arrow? child.1).instances arrow
        value := expression.valueAt witness index
        roots := node.children.map Prod.snd } := by
  rw [RootContent.root, run_rootBlocks, ← RootState.annotated_eq]
  simp only [Combinator.map] at typed ⊢
  cases node with
  | iden | unit =>
      rw [unlabelled rfl]
      simp only [Combinator.mapMem] at typed ⊢
      cases typed
      cases ran
      refine ⟨rfl, ?_⟩
      simp [RootContent.absorbed, Combinator.instances, Combinator.children, Digest.blocks,
        Digest.absorbRight]
  | injl child | injr child | take child | drop child =>
      -- The rule says what the arrow of the child is, which is not computed here.
      rw [unlabelled rfl]
      simp only [Combinator.mapMem] at typed ⊢
      generalize expression.arrow? child.1 = childArrow at typed ⊢
      cases typed
      cases ran
      refine ⟨rfl, ?_⟩
      simp [RootContent.absorbed, Combinator.instances, Combinator.children, Digest.blocks]
  | comp left right | pair left right | case left right | assertl left right
  | assertr left right | disconnect left right =>
      rw [unlabelled rfl]
      simp only [Combinator.mapMem] at typed ⊢
      generalize found : expression.arrow? left.1 = leftArrow at typed ⊢
      generalize found' : expression.arrow? right.1 = rightArrow at typed ⊢
      cases typed
      simp only [annotate, Expression.arrow, found, found'] at ran
      cases ran
      refine ⟨rfl, ?_⟩
      simp [RootContent.absorbed, Combinator.instances, Combinator.children, Digest.blocks,
        Digest.absorbRight]
  | witness =>
      simp only [annotate, Witness.valueAt] at ran
      simp only [valueAt]
      cases labelled : (witness.spread expression).getD index none with
      | none =>
          rw [labelled] at ran
          cases ran
      | some bits =>
          rw [labelled] at ran
          cases ran
          refine ⟨rfl, ?_⟩
          simp [RootContent.absorbed, Combinator.instances, Combinator.children, Combinator.mapMem,
            Digest.blocks, Digest.absorbRight]
  | hidden root => cases typed

section Roots

variable {roots : Vector Digest expression.dag.nodes.size}
  {roots' : Vector Digest expression'.dag.nodes.size}

theorem root_of_hidden (ran : expression.annotatedRoots witness = .ok roots)
    (inside : index < expression.dag.nodes.size) {root : Digest}
    (isHidden : expression.dag.nodes[index] = .hidden root) : Dag.resultAt roots index = root := by
  rcases exists_ok_of_bind ran with ⟨-, -, scanned⟩
  have stepped := Dag.scan_eq_ok scanned inside
  rw [isHidden] at stepped
  exact (Except.ok.inj stepped).symm

theorem annotate_of_annotatedRoots (ran : expression.annotatedRoots witness = .ok roots)
    (inside : index < expression.dag.nodes.size)
    (visible : (expression.dag.nodes[index]).isHidden = false) {arrow : Arrow}
    (typed : expression.arrow? index = some arrow) :
    expression.annotate witness (witness.spread expression) index arrow
        ((expression.dag.nodes[index]).map fun child => (child, Dag.resultAt roots child)) =
      .ok (Dag.resultAt roots index) := by
  rcases exists_ok_of_bind ran with ⟨-, -, scanned⟩
  have stepped := Dag.scan_eq_ok scanned inside
  rw [← Combinator.isHidden_map fun child => (child, Dag.resultAt roots child)] at visible
  simp only [Expression.arrow, typed] at stepped
  generalize (expression.dag.nodes[index]).map (fun child => (child, Dag.resultAt roots child)) =
    shape at stepped visible ⊢
  cases shape with
  | hidden root => cases visible
  | _ => exact stepped

/-- What the root of a node that is not hidden commits to tells the arrow of the node. -/
theorem exists_contentAt (ran : expression.annotatedRoots witness = .ok roots)
    (inside : index < expression.dag.nodes.size)
    (visible : (expression.dag.nodes[index]).isHidden = false) :
    ∃ content, expression.contentAt witness (Dag.resultAt roots) index = some content ∧
      content.Regular ∧ Dag.resultAt roots index = content.root ∧
      content.tag.arrowOf content.types = expression.visibleArrow? index := by
  have found : expression.node? index = some expression.dag.nodes[index] :=
    Array.getElem?_eq_getElem inside
  rcases exists_arrow? found visible with ⟨arrow, typed⟩
  have typed' : expression.visibleArrow? index = some arrow :=
    (visibleArrow?_eq inside visible).trans typed
  have hasType := hasType found typed
  have settled := Combinator.map_hidden_of_settled (expression.dag.settled index inside)
  have counted := Combinator.length_instances hasType
  have told := Combinator.arrowOf_instances hasType
  rw [Combinator.tag_map] at counted told
  have stepped := annotate_of_annotatedRoots ran inside visible typed
  have annotated := annotate_eq (by rwa [Combinator.map_map])
    (fun notWitness => valueAt_eq_none inside (by simpa using notWitness)) stepped
  simp only [Combinator.tag_map, Combinator.map_map, Combinator.children_map, List.map_map]
    at annotated
  refine ⟨_, by simp only [contentAt, found, typed']; rfl, ?_, annotated.2, ?_⟩
  · exact ⟨counted, annotated.1, by simp [← settled]⟩
  · exact told.trans typed'.symm

theorem trail_subset_annotatedTrail (ran : expression.annotatedRoots witness = .ok roots)
    (inside : index < expression.dag.nodes.size) {content : RootContent}
    (annotated : expression.contentAt witness (Dag.resultAt roots) index = some content) :
    content.trail ⊆ expression.annotatedTrail witness := by
  intro application member
  rw [annotatedTrail, ran]
  apply List.mem_flatMap.mpr
  exact ⟨index, List.mem_range.mpr inside, by simpa [annotated] using member⟩

theorem unfoldingAt_of_hidden (inside : index < expression.dag.nodes.size) {root : Digest}
    (isHidden : expression.dag.nodes[index] = .hidden root) :
    expression.unfoldingAt witness index = .node none none (.hidden root) := by
  have noArrow : expression.visibleArrow? index = none := by
    simp [visibleArrow?, hiddenAt, nodes, inside, isHidden, Combinator.isHidden]
  rw [unfoldingAt_eq inside, noArrow, valueAt_eq_none inside (by rw [isHidden]; rfl), isHidden]
  rfl

theorem eq_of_contentAt_eq {assigned assigned' : Nat → Digest} {content : RootContent}
    (inside : index < expression.dag.nodes.size) (inside' : index' < expression'.dag.nodes.size)
    (annotated : expression.contentAt witness assigned index = some content)
    (annotated' : expression'.contentAt witness' assigned' index' = some content) :
    (expression.dag.nodes[index]).tag = (expression'.dag.nodes[index']).tag ∧
      expression.valueAt witness index = expression'.valueAt witness' index' ∧
      (expression.dag.nodes[index]).children.map assigned =
        (expression'.dag.nodes[index']).children.map assigned' := by
  have found : expression.node? index = some expression.dag.nodes[index] :=
    Array.getElem?_eq_getElem inside
  have found' : expression'.node? index' = some expression'.dag.nodes[index'] :=
    Array.getElem?_eq_getElem inside'
  simp only [contentAt, found, found', Option.bind_eq_bind, Option.bind_some,
    Option.bind_eq_some_iff, Option.pure_def, Option.some.injEq] at annotated annotated'
  rcases annotated with ⟨arrow, -, rfl⟩
  rcases annotated' with ⟨arrow', -, same⟩
  rcases RootContent.mk.inj same with ⟨sameTag, -, sameValue, sameRoots⟩
  exact ⟨sameTag.symm, sameValue.symm, sameRoots.symm⟩

/-- What a node that is not hidden is labelled with can be read off its annotated root, and with it
the roots of its children and which of them are hidden. -/
theorem labels_eq_of_root_eq (ran : expression.annotatedRoots witness = .ok roots)
    (ran' : expression'.annotatedRoots witness' = .ok roots')
    (free : Sha256.CollisionFree
      (expression.annotatedTrail witness ++ expression'.annotatedTrail witness'))
    (inside : index < expression.dag.nodes.size) (inside' : index' < expression'.dag.nodes.size)
    (visible : (expression.dag.nodes[index]).isHidden = false)
    (visible' : (expression'.dag.nodes[index']).isHidden = false)
    (sameRoot : Dag.resultAt roots index = Dag.resultAt roots' index') :
    expression.visibleArrow? index = expression'.visibleArrow? index' ∧
      expression.valueAt witness index = expression'.valueAt witness' index' ∧
      (expression.dag.nodes[index]).map
          (fun child => (Dag.resultAt roots child, hiddenAt expression.nodes child)) =
        (expression'.dag.nodes[index']).map
          (fun child => (Dag.resultAt roots' child, hiddenAt expression'.nodes child)) := by
  rcases exists_contentAt ran inside visible with ⟨content, annotated, regular, made, told⟩
  rcases exists_contentAt ran' inside' visible' with
    ⟨content', annotated', regular', made', told'⟩
  have within := List.subset_append_of_subset_left (expression'.annotatedTrail witness')
    (trail_subset_annotatedTrail ran inside annotated)
  have within' := List.subset_append_of_subset_right (expression.annotatedTrail witness)
    (trail_subset_annotatedTrail ran' inside' annotated')
  rw [made, made'] at sameRoot
  cases RootContent.eq_of_root_eq free regular regular' within within' sameRoot
  rcases eq_of_contentAt_eq inside inside' annotated annotated' with
    ⟨sameTag, sameValue, sameRoots⟩
  have settled := Combinator.map_hidden_of_settled (expression.dag.settled index inside)
  have settled' := Combinator.map_hidden_of_settled (expression'.dag.settled index' inside')
  -- No root says whether it is that of a hidden node, but the combinator above does.
  refine ⟨told.symm.trans told', sameValue, Combinator.map_eq_map_of_tag_eq sameTag visible ?_⟩
  rw [← List.zip_map', ← List.zip_map', sameRoots]
  congr 1
  rw [nodes, nodes, settled, settled', sameTag]

/-- The tree below a node can be read off its annotated root, if it is known whether the node is
hidden. -/
theorem unfoldingAt_eq_of_root_eq (ran : expression.annotatedRoots witness = .ok roots)
    (ran' : expression'.annotatedRoots witness' = .ok roots')
    (free : Sha256.CollisionFree
      (expression.annotatedTrail witness ++ expression'.annotatedTrail witness'))
    (inside : index < expression.dag.nodes.size) (inside' : index' < expression'.dag.nodes.size)
    (sameKind : hiddenAt expression.nodes index = hiddenAt expression'.nodes index')
    (sameRoot : Dag.resultAt roots index = Dag.resultAt roots' index') :
    expression.unfoldingAt witness index = expression'.unfoldingAt witness' index' := by
  induction index using Nat.strongRecOn generalizing index' with
  | ind index ih =>
      have kind : (expression.dag.nodes[index]).isHidden =
          (expression'.dag.nodes[index']).isHidden := by
        simpa [hiddenAt, nodes, inside, inside'] using sameKind
      cases visible : (expression.dag.nodes[index]).isHidden with
      | true =>
          rcases Combinator.exists_of_isHidden visible with ⟨root, isHidden⟩
          rcases Combinator.exists_of_isHidden (kind ▸ visible) with ⟨root', isHidden'⟩
          rw [root_of_hidden ran inside isHidden, root_of_hidden ran' inside' isHidden'] at sameRoot
          rw [unfoldingAt_of_hidden inside isHidden, unfoldingAt_of_hidden inside' isHidden',
            sameRoot]
      | false =>
          rcases labels_eq_of_root_eq ran ran' free inside inside' visible (kind ▸ visible)
            sameRoot with ⟨sameArrow, sameValue, sameShape⟩
          rw [unfoldingAt_eq inside, unfoldingAt_eq inside', sameArrow, sameValue]
          congr 1
          apply Combinator.map_eq_map_of_map_eq sameShape
          intro child member child' member' sameChild
          rcases Prod.mk.inj sameChild with ⟨sameChildRoot, sameChildKind⟩
          have earlier := expression.dag.backward index inside child member
          have earlier' := expression'.dag.backward index' inside' child' member'
          exact ih child earlier (Nat.lt_trans earlier inside) (Nat.lt_trans earlier' inside')
            sameChildKind sameChildRoot

end Roots

end Expression

end Simplicity
