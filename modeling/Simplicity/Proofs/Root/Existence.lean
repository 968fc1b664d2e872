import Simplicity.Proofs.Bounds
import Simplicity.Proofs.Program.Representation
import Simplicity.Proofs.Root.Annotated

/-!
# Expressions have roots

The passes that compute roots ask for the types of nodes, for the parts of these types and for the
values of witness nodes, and fail where they get none. On an expression they never do: a node that is
not hidden has a type, the typing rule of its combinator says which of the types are sums and products,
and if there are as many values as witness nodes, each witness node is given one.

So the number of values is all that can be wrong, and this is looked at first. What is computed in two
ways comes out the same.
-/

namespace Simplicity

namespace Witness

variable {expression : Expression} {witness : Witness}

theorem checkCount_of_counted (counted : witness.size = expression.witnessNodes.length) :
    witness.checkCount expression = .ok () :=
  if_pos counted

theorem checkCount_of_miscounted (miscounted : witness.size ≠ expression.witnessNodes.length) :
    witness.checkCount expression =
      .error (.witnessCount expression.witnessNodes.length witness.size) :=
  if_neg miscounted

/-- If there are as many values as witness nodes, the witness nodes are labelled, and no others. -/
theorem map_isSome_spreadOver {nodes : List Node} {values : List BitString}
    (labels : Array (Option BitString))
    (count : values.length = (nodes.filter Combinator.isWitness).length) :
    (spreadOver nodes values labels).toList.map Option.isSome =
      labels.toList.map Option.isSome ++ nodes.map Combinator.isWitness := by
  induction nodes generalizing values labels with
  | nil => simp [spreadOver]
  | cons node rest ih =>
      rw [spreadOver]
      by_cases isWitness : node.isWitness
      · rw [List.filter_cons_of_pos isWitness, List.length_cons] at count
        rcases values with _ | ⟨value, values⟩
        · simp at count
        · have countRest : values.length = (rest.filter Combinator.isWitness).length :=
            Nat.succ.inj count
          simp [ih _ countRest, isWitness]
      · rw [List.filter_cons_of_neg isWitness] at count
        simp [ih _ count, isWitness]

end Witness

namespace Expression

variable {expression : Expression} {witness : Witness} {index : Nat} {node : Node}

theorem isSome_valueAt (counted : witness.size = expression.witnessNodes.length)
    (isNode : expression.node? index = some node) :
    (expression.valueAt witness index).isSome = node.isWitness := by
  rw [length_witnessNodes] at counted
  have labelled := congrArg (·[index]?) (Witness.map_isSome_spreadOver #[] counted)
  have isNode' : expression.nodes[index]? = some node := isNode
  simp only [List.map_nil, List.nil_append, List.getElem?_map, Array.getElem?_toList, isNode',
    Option.map_some, Option.map_eq_some_iff] at labelled
  rcases labelled with ⟨label, found, same⟩
  rw [valueAt, Array.getD_eq_getD_getElem?, Witness.spread, found, Option.getD_some, same]

theorem exists_valueAt (counted : witness.size = expression.witnessNodes.length)
    (isNode : expression.node? index = some .witness) :
    ∃ bits, witness.valueAt expression (witness.spread expression) index = .ok bits := by
  rcases Option.isSome_iff_exists.mp (isSome_valueAt counted isNode) with ⟨bits, labelled⟩
  exact ⟨bits, by rw [Witness.valueAt, ← valueAt, labelled]⟩

/-- Every node has a fingerprint. -/
theorem exists_fingerprints (counted : witness.size = expression.witnessNodes.length) :
    ∃ prints, expression.fingerprints witness = .ok prints := by
  apply Dag.exists_scan_eq_ok
  intro index results
  rw [Combinator.map_map]
  have isNode : expression.node? index = some (expression.dag.nodes[index]) :=
    Array.getElem?_eq_getElem index.isLt
  generalize expression.dag.nodes[index] = node at isNode
  cases node with
  | witness =>
      rcases exists_valueAt counted isNode with ⟨bits, labelled⟩
      rcases exists_arrow? isNode rfl with ⟨arrow, typed⟩
      simp [Combinator.map, Combinator.mapMem, labelled, arrow_eq_ok_iff.mpr typed, bind, Except.bind,
        pure, Except.pure]
  | _ => exact ⟨_, rfl⟩

/-- Every node has an identity root. -/
theorem exists_identityRoots (counted : witness.size = expression.witnessNodes.length) :
    ∃ roots, expression.identityRoots witness = .ok roots := by
  rcases exists_fingerprints counted with ⟨prints, printed⟩
  rw [identityRoots, Witness.checkCount_of_counted counted, printed]
  apply Dag.exists_scan_eq_ok
  intro index results
  have isNode : expression.node? index = some (expression.dag.nodes[index]) :=
    Array.getElem?_eq_getElem index.isLt
  generalize expression.dag.nodes[index] = node at isNode
  cases node with
  | hidden root => exact ⟨root, rfl⟩
  | _ =>
      rcases exists_arrow? isNode rfl with ⟨arrow, typed⟩
      rw [arrow_eq_ok_iff.mpr typed]
      exact ⟨_, rfl⟩

theorem get_last {α : Type} [Inhabited α] (results : Vector α expression.dag.nodes.size) :
    results.get expression.last = Dag.resultAt results expression.root :=
  (Dag.resultAt_eq results expression.last.isLt).symm

theorem identityOf_of_visible {fingerprint : Digest} {arrow : Option Arrow}
    (visible : node.isHidden = false) :
    identityOf fingerprint arrow node = arrow.map (bindArrow fingerprint) := by
  cases node with
  | hidden => cases visible
  | _ => rfl

/-- The identity root of an expression is the one of its last node. -/
theorem identityRoot_eq_ok {roots : Vector Digest expression.dag.nodes.size}
    (ran : expression.identityRoots witness = .ok roots) :
    expression.identityRoot witness = .ok (Dag.resultAt roots expression.root) := by
  rcases exists_ok_of_bind ran with ⟨⟨⟩, counted, -⟩
  rcases identityOf_of_identityRoots ran with ⟨prints, printed, identities⟩
  have inside : expression.root < expression.dag.nodes.size := expression.last.isLt
  have visible : (expression.dag.nodes[expression.root]).isHidden = false := by
    rw [← Typing.hiddenAt_eq (Array.getElem?_eq_getElem inside)]
    exact expression.visible
  have identity := identities expression.root inside
  rw [identityOf_of_visible visible, visibleArrow?_eq inside visible, expression.arrow?_root,
    Option.map_some, Option.some.injEq] at identity
  rw [identityRoot, counted, printed, ← identity, Dag.resultAt_eq prints inside,
    arrow_eq_ok_iff.mpr expression.arrow?_root]
  rfl

/-- The root of a node can be computed if the node has a type, and a value if it is a witness node. -/
theorem exists_annotate {arrow : Arrow} {node : Combinator (Nat × Digest)}
    (typed : (node.map fun child => expression.arrow? child.1).HasType arrow)
    (labelled : node.isWitness = true →
      ∃ bits, witness.valueAt expression (witness.spread expression) index = .ok bits) :
    ∃ root, expression.annotate witness (witness.spread expression) index arrow node = .ok root := by
  simp only [Combinator.map] at typed
  cases node with
  | iden | unit | hidden => exact ⟨_, rfl⟩
  | injl child | injr child | take child | drop child =>
      simp only [Combinator.mapMem] at typed
      generalize expression.arrow? child.1 = childArrow at typed
      cases typed
      exact ⟨_, rfl⟩
  | comp left right | pair left right | case left right | assertl left right
  | assertr left right | disconnect left right =>
      simp only [Combinator.mapMem] at typed
      generalize found : expression.arrow? left.1 = leftArrow at typed
      generalize found' : expression.arrow? right.1 = rightArrow at typed
      cases typed
      simp only [annotate, Expression.arrow, found, found']
      exact ⟨_, rfl⟩
  | witness =>
      rcases labelled rfl with ⟨bits, value⟩
      simp only [annotate, value]
      exact ⟨_, rfl⟩

/-- Every node has an annotated root. -/
theorem exists_annotatedRoots (counted : witness.size = expression.witnessNodes.length) :
    ∃ roots, expression.annotatedRoots witness = .ok roots := by
  rw [annotatedRoots, Witness.checkCount_of_counted counted]
  apply Dag.exists_scan_eq_ok
  intro index results
  have isNode : expression.node? index = some (expression.dag.nodes[index]) :=
    Array.getElem?_eq_getElem index.isLt
  generalize expression.dag.nodes[index] = node at isNode
  have succeeds : node.isHidden = false → ∃ root,
      (expression.arrow index >>= fun arrow => expression.annotate witness (witness.spread expression)
        index arrow (node.map fun child => (child, results child))) = .ok root := by
    intro visible
    rcases exists_arrow? isNode visible with ⟨arrow, typed⟩
    rw [arrow_eq_ok_iff.mpr typed]
    apply exists_annotate
    · rw [Combinator.map_map]
      exact hasType isNode typed
    · intro isWitness
      rw [Combinator.isWitness_map] at isWitness
      cases node with
      | witness => exact exists_valueAt counted isNode
      | _ => cases isWitness
  cases node with
  | hidden root => exact ⟨root, rfl⟩
  | _ => exact succeeds rfl

theorem annotatedRoot_eq_ok {roots : Vector Digest expression.dag.nodes.size}
    (ran : expression.annotatedRoots witness = .ok roots) :
    expression.annotatedRoot witness = .ok (Dag.resultAt roots expression.root) := by
  rw [annotatedRoot, ran, ← get_last]
  rfl

end Expression

theorem Program.compute_of_analyse {expression : Expression} {witness : Witness} {limits : Limits}
    {program : Program} (accepted : analyse expression witness limits = .ok program) :
    Roots.compute expression witness = .ok program.roots ∧
      expression.bounds = .ok program.bounds := by
  rcases analyse_eq_ok_iff.mp accepted with
    ⟨-, roots, rooted, -, bounds, bounded, -, annotated, annotates, rfl⟩
  refine ⟨?_, bounded⟩
  rw [Roots.compute, Expression.identityRoot_eq_ok rooted, annotates, ← Expression.get_last]
  rfl

namespace Expression

/-- Every node of an expression has bounds, and finds those of its children before it. The roots of an
expression exist unless there are too many or too few values, and are refused for that alone. The
identity root is the one of the last node, and a program that has been accepted keeps the roots and the
bounds that its expression has. -/
theorem roots_eq_ok_or_miscounted (expression : Expression) (witness : Witness) :
    (∃ bounds, expression.nodeBounds = .ok bounds ∧ bounds.toList.length = expression.size) ∧
    (∀ index node, expression.node? index = some node → ∀ child ∈ node.children, child < index) ∧
    (witness.size ≠ expression.witnessNodes.length →
      expression.identityRoots witness =
          .error (.witnessCount expression.witnessNodes.length witness.size) ∧
        expression.identityRoot witness =
          .error (.witnessCount expression.witnessNodes.length witness.size) ∧
        expression.annotatedRoots witness =
          .error (.witnessCount expression.witnessNodes.length witness.size) ∧
        expression.annotatedRoot witness =
          .error (.witnessCount expression.witnessNodes.length witness.size)) ∧
    (witness.size = expression.witnessNodes.length →
      ∃ identities annotations, expression.identityRoots witness = .ok identities ∧
        expression.identityRoot witness = .ok (identities.get expression.last) ∧
        expression.annotatedRoots witness = .ok annotations ∧
        expression.annotatedRoot witness = .ok (annotations.get expression.last)) ∧
    ∀ limits program, Program.analyse expression witness limits = .ok program →
      Roots.compute expression witness = .ok program.roots ∧
        expression.bounds = .ok program.bounds := by
  refine ⟨?_, expression.dag.childrenFirst, ?_, ?_, fun _ _ => Program.compute_of_analyse⟩
  · rcases expression.exists_nodeBounds with ⟨bounds, ran⟩
    exact ⟨bounds, ran, Vector.length_toList⟩
  · intro miscounted
    have refused := Witness.checkCount_of_miscounted miscounted
    simp only [identityRoots, identityRoot, annotatedRoots, annotatedRoot, refused]
    exact ⟨rfl, rfl, rfl, rfl⟩
  · intro counted
    rcases exists_identityRoots counted with ⟨identities, ran⟩
    rcases exists_annotatedRoots counted with ⟨annotations, ran'⟩
    refine ⟨identities, annotations, ran, ?_, ran', ?_⟩
    · rw [identityRoot_eq_ok ran, get_last]
    · rw [annotatedRoot_eq_ok ran', get_last]

/-- A lone witness node has its roots with one value, and is refused without. -/
theorem roots_eq_ok_or_miscounted_loneWitness : ∃ expression program,
    ofNodes #[.witness] = .ok expression ∧
      Program.analyse expression ⟨[.empty]⟩ .standard = .ok program ∧
      Roots.compute expression ⟨[.empty]⟩ = .ok program.roots ∧
      (∃ root, expression.annotatedRoot ⟨[.empty]⟩ = .ok root) ∧
      expression.annotatedRoot ⟨[]⟩ = .error (.witnessCount 1 0) := by
  let expression : Expression :=
    ⟨⟨#[.witness], by decide, by decide⟩, _, by decide, by decide, rfl, rfl⟩
  have analysed : (Program.analyse expression ⟨[.empty]⟩ .standard).isOk = true := by
    decide +kernel
  have full := roots_eq_ok_or_miscounted expression ⟨[.empty]⟩
  have lacking := roots_eq_ok_or_miscounted expression ⟨[]⟩
  rcases full.2.2.2.1 rfl with ⟨-, annotations, -, -, -, annotated⟩
  cases accepted : Program.analyse expression ⟨[.empty]⟩ .standard with
  | error error =>
      rw [accepted] at analysed
      cases analysed
  | ok program =>
      exact ⟨expression, program, rfl, accepted, (full.2.2.2.2 _ program accepted).1,
        ⟨_, annotated⟩, (lacking.2.2.1 (by decide)).2.2.2⟩

end Expression

end Simplicity
