import Simplicity.Proofs.Expression.Building
import Simplicity.Proofs.Hash.Padding
import Simplicity.Proofs.Root.Existence

/-!
# The identity root binds the witness

Two witnesses for one expression give its nodes the same combinators and types, so the fingerprints
of a node are made from the same state with both, and differ in what is absorbed only. A value that
is not the same shows in the digest of the value and therefore in the fingerprint of its witness node.
From there the difference goes up: a node absorbs the fingerprints of all of its children in one
block, and every node is below the root.

All that is asked of the compression function is that it has no collision among its applications in
the two computations. The states that belong to tags and the roots of types are the same in both, and
so it does not matter how they are made.
-/

namespace Simplicity

namespace Expression

/-- The application of the compression function that makes a fingerprint, if it takes one: the state
that belongs to the combinator, and the block of what it absorbs. -/
def lastApplication (value : Option BitString) (arrow : Option Arrow) (node : Combinator Digest) :
    Option (Digest × Block) :=
  match node with
  | .iden | .unit | .hidden _ => none
  | .witness => value.bind fun bits => arrow.map fun arrow =>
      (RootState.identityWitness, (Sha256.hash bits).block arrow.target.root)
  | .disconnect left right => some (RootState.identityDisconnect, left.block right)
  | .injl child | .injr child | .take child | .drop child =>
      some (RootState.commitment node.tag, Digest.zero.block child)
  | .assertl left right | .assertr left right => some (RootState.commitment .case, left.block right)
  | .comp left right | .case left right | .pair left right =>
      some (RootState.commitment node.tag, left.block right)

section Step

variable {value value' : Option BitString} {arrow : Option Arrow} {application : Digest × Block}

theorem fingerprintOf_of_lastApplication {node : Combinator Digest}
    (applied : lastApplication value arrow node = some application) :
    fingerprintOf value arrow node = some (Sha256.compress application.1 application.2) := by
  cases node with
  | iden | unit | hidden => cases applied
  | witness =>
      simp only [lastApplication, Option.bind_eq_some_iff, Option.map_eq_some_iff] at applied
      rcases applied with ⟨bits, rfl, found, rfl, rfl⟩
      rfl
  | _ =>
      cases applied
      rfl

theorem exists_lastApplication {node : Node} {child : Nat} (member : child ∈ node.children)
    (prints : Nat → Digest) :
    ∃ application, lastApplication value arrow (node.map prints) = some application := by
  cases node with
  | iden | unit | witness | hidden => cases member
  | _ => exact ⟨_, rfl⟩

/-- A combinator absorbs the fingerprints of all of its children. -/
theorem eq_of_lastApplication_eq {node : Node} {prints prints' : Nat → Digest}
    (applied : lastApplication value arrow (node.map prints) = some application)
    (applied' : lastApplication value' arrow (node.map prints') = some application) :
    ∀ child ∈ node.children, prints child = prints' child := by
  cases node with
  | iden | unit | witness | hidden => simp [Combinator.children]
  | _ =>
      cases applied
      have same := Digest.block_injective (Prod.mk.inj (Option.some.inj applied')).2
      simp [Combinator.children, same]

end Step

variable (expression : Expression) (witness : Witness)

/-- The applications of the compression function that make the fingerprint of a node, and the digest
of its value if it has one. -/
def fingerprintTrail (prints : Nat → Digest) (index : Nat) : List (Digest × Block) :=
  let value := expression.valueAt witness index
  let last := (expression.node? index).bind fun node =>
    lastApplication value (expression.visibleArrow? index) (node.map prints)
  (value.toList.flatMap fun bits => Sha256.trail (Sha256.blocks (Sha256.pad bits))) ++ last.toList

/-- The applications of the compression function that bind a fingerprint to a type. -/
def bindingTrail (fingerprint : Digest) (arrow : Arrow) : List (Digest × Block) :=
  [(RootState.identity, Digest.zero.block fingerprint),
    (RootState.identity.absorbRight fingerprint, arrow.source.root.block arrow.target.root)]

/-- The applications of the compression function that make the identity root of an expression. -/
def identityTrail : List (Digest × Block) :=
  match expression.fingerprints witness with
  | .error _ => []
  | .ok prints =>
      ((List.range expression.size).flatMap
        (expression.fingerprintTrail witness (Dag.resultAt prints))) ++
      (expression.arrow? expression.root).toList.flatMap
        (bindingTrail (Dag.resultAt prints expression.root))

variable {expression witness} {witness' : Witness} {index : Nat}
  {prints prints' : Vector Digest expression.dag.nodes.size}

theorem exists_getElem_nodes {node : Node} (isNode : expression.node? index = some node) :
    ∃ inside : index < expression.dag.nodes.size, expression.dag.nodes[index] = node :=
  Array.getElem?_eq_some_iff.mp isNode

theorem fingerprintTrail_subset (printed : expression.fingerprints witness = .ok prints)
    (inside : index < expression.dag.nodes.size) :
    expression.fingerprintTrail witness (Dag.resultAt prints) index ⊆
      expression.identityTrail witness := by
  intro application member
  rw [identityTrail, printed]
  exact List.mem_append_left _ (List.mem_flatMap.mpr ⟨index, List.mem_range.mpr inside, member⟩)

theorem bindingTrail_subset (printed : expression.fingerprints witness = .ok prints) :
    bindingTrail (Dag.resultAt prints expression.root) ⟨.unit, .unit⟩ ⊆
      expression.identityTrail witness := by
  intro application member
  rw [identityTrail, printed, expression.arrow?_root]
  apply List.mem_append_right
  simpa using member

/-- The digest of a value is among what is computed for its node. -/
theorem trail_subset_of_valueAt {bits : BitString} {results : Nat → Digest}
    (labelled : expression.valueAt witness index = some bits) :
    Sha256.trail (Sha256.blocks (Sha256.pad bits)) ⊆
      expression.fingerprintTrail witness results index := by
  intro application member
  simp only [fingerprintTrail, labelled]
  exact List.mem_append_left _ (by simpa using member)

section Difference

variable (printed : expression.fingerprints witness = .ok prints)
  (printed' : expression.fingerprints witness' = .ok prints')
  (free : Sha256.NoCollision
    (expression.identityTrail witness ++ expression.identityTrail witness'))
include printed printed' free

/-- Equal fingerprints of a node are made by the same application. -/
theorem lastApplication_eq_of_fingerprint_eq {node : Node} {application application' : Digest × Block}
    (isNode : expression.node? index = some node)
    (applied : lastApplication (expression.valueAt witness index) (expression.visibleArrow? index)
      (node.map (Dag.resultAt prints)) = some application)
    (applied' : lastApplication (expression.valueAt witness' index) (expression.visibleArrow? index)
      (node.map (Dag.resultAt prints')) = some application')
    (same : Dag.resultAt prints index = Dag.resultAt prints' index) :
    application = application' := by
  rcases exists_getElem_nodes isNode with ⟨inside, rfl⟩
  have made := fingerprintOf_of_fingerprints printed inside
  have made' := fingerprintOf_of_fingerprints printed' inside
  rw [fingerprintOf_of_lastApplication applied, Option.some.injEq] at made
  rw [fingerprintOf_of_lastApplication applied', Option.some.injEq] at made'
  apply free
  · apply List.mem_append_left
    apply fingerprintTrail_subset printed inside
    simp [fingerprintTrail, isNode, applied]
  · apply List.mem_append_right
    apply fingerprintTrail_subset printed' inside
    simp [fingerprintTrail, isNode, applied']
  · rw [made, made', same]

/-- A different fingerprint of a child shows in that of its parent. -/
theorem fingerprint_ne_of_child_ne {node : Node} {child : Nat}
    (isNode : expression.node? index = some node) (member : child ∈ node.children)
    (different : Dag.resultAt prints child ≠ Dag.resultAt prints' child) :
    Dag.resultAt prints index ≠ Dag.resultAt prints' index := by
  intro same
  rcases exists_lastApplication member (Dag.resultAt prints) with ⟨application, applied⟩
  rcases exists_lastApplication member (Dag.resultAt prints') with ⟨application', applied'⟩
  cases lastApplication_eq_of_fingerprint_eq printed printed' free isNode applied applied' same
  exact different (eq_of_lastApplication_eq applied applied' child member)

/-- A different fingerprint of any node shows in that of the root. -/
theorem fingerprint_root_ne (reached : Reaches expression.nodes expression.root index)
    (different : Dag.resultAt prints index ≠ Dag.resultAt prints' index) :
    Dag.resultAt prints expression.root ≠ Dag.resultAt prints' expression.root := by
  induction reached with
  | root => exact different
  | child _ isNode member ih =>
      exact ih (fingerprint_ne_of_child_ne printed printed' free isNode member different)

/-- Different values show in the fingerprint of their witness node. -/
theorem fingerprint_ne_of_value_ne {bits bits' : BitString}
    (isNode : expression.node? index = some .witness)
    (labelled : expression.valueAt witness index = some bits)
    (labelled' : expression.valueAt witness' index = some bits')
    (short : bits.length < 2 ^ 64) (short' : bits'.length < 2 ^ 64) (different : bits ≠ bits') :
    Dag.resultAt prints index ≠ Dag.resultAt prints' index := by
  intro same
  rcases exists_getElem_nodes isNode with ⟨inside, isWitness⟩
  rcases exists_arrow? isNode rfl with ⟨arrow, typed⟩
  have visible : expression.visibleArrow? index = some arrow := by
    rw [visibleArrow?_eq inside (by rw [isWitness]; rfl), typed]
  have applied (results : Nat → Digest) (label : BitString) :
      lastApplication (some label) (some arrow) (Combinator.witness.map results) =
        some (RootState.identityWitness, (Sha256.hash label).block arrow.target.root) :=
    rfl
  have sameApplication := lastApplication_eq_of_fingerprint_eq printed printed' free isNode
    (by rw [labelled, visible, applied]) (by rw [labelled', visible, applied]) same
  have sameHash := (Digest.block_injective (Prod.mk.inj sameApplication).2).1
  refine different (Sha256.eq_of_hash_eq free short short' ?_ ?_ sameHash)
  · apply List.subset_append_of_subset_left
    exact List.Subset.trans (trail_subset_of_valueAt labelled) (fingerprintTrail_subset printed inside)
  · apply List.subset_append_of_subset_right
    exact List.Subset.trans (trail_subset_of_valueAt labelled')
      (fingerprintTrail_subset printed' inside)

/-- The fingerprint of the root can be read off the identity root. -/
theorem fingerprint_root_eq
    (same : bindArrow (Dag.resultAt prints expression.root) ⟨.unit, .unit⟩ =
      bindArrow (Dag.resultAt prints' expression.root) ⟨.unit, .unit⟩) :
    Dag.resultAt prints expression.root = Dag.resultAt prints' expression.root := by
  have within := List.subset_append_of_subset_left (expression.identityTrail witness')
    (bindingTrail_subset printed)
  have within' := List.subset_append_of_subset_right (expression.identityTrail witness)
    (bindingTrail_subset printed')
  have sameState := (Prod.mk.inj
    (free _ (within (.tail _ (.head _))) _ (within' (.tail _ (.head _))) same)).1
  have sameBlock := (Prod.mk.inj (free _ (within (.head _)) _ (within' (.head _)) sameState)).2
  exact (Digest.block_injective sameBlock).2

end Difference

section Values

variable (counted : witness.size = expression.witnessNodes.length)
include counted

theorem mem_values_of_valueAt {bits : BitString}
    (labelled : expression.valueAt witness index = some bits) : bits ∈ witness.values := by
  rw [Witness.values_eq_of_spread counted, List.mem_filterMap]
  refine ⟨some bits, ?_, rfl⟩
  rw [valueAt, Array.getD_eq_getD_getElem?, Option.getD_eq_iff] at labelled
  rcases labelled with found | ⟨-, ⟨⟩⟩
  exact Array.mem_toList_iff.mpr (Array.mem_of_getElem? found)

/-- Different witnesses for an expression differ at one of its witness nodes. -/
theorem exists_value_ne (counted' : witness'.size = expression.witnessNodes.length)
    (different : witness ≠ witness') :
    ∃ index bits bits', expression.node? index = some .witness ∧
      expression.valueAt witness index = some bits ∧
      expression.valueAt witness' index = some bits' ∧ bits ≠ bits' := by
  obtain ⟨index, inside, labelsDiffer⟩ : ∃ index, ∃ _ : index < expression.dag.nodes.size,
      expression.valueAt witness index ≠ expression.valueAt witness' index := by
    by_contra agree
    push Not at agree
    have sameValues : witness.values = witness'.values := by
      rw [Witness.values_eq_of_spread counted, Witness.values_eq_of_spread counted',
        Witness.spread_eq_of_valueAt_eq agree]
    cases witness
    cases sameValues
    exact different rfl
  have isNode : expression.node? index = some expression.dag.nodes[index] :=
    Array.getElem?_eq_getElem inside
  have isWitness : (expression.dag.nodes[index]).isWitness = true := by
    by_contra notWitness
    rw [Bool.not_eq_true] at notWitness
    rw [valueAt_eq_none inside notWitness, valueAt_eq_none inside notWitness] at labelsDiffer
    exact labelsDiffer rfl
  have labelled := isSome_valueAt counted isNode
  have labelled' := isSome_valueAt counted' isNode
  rw [isWitness, Option.isSome_iff_exists] at labelled labelled'
  rcases labelled with ⟨bits, labelled⟩
  rcases labelled' with ⟨bits', labelled'⟩
  refine ⟨index, bits, bits', ?_, labelled, labelled', ?_⟩
  · rw [isNode]
    generalize expression.dag.nodes[index] = node at isWitness
    cases node with
    | witness => rfl
    | _ => cases isWitness
  · rintro rfl
    exact labelsDiffer (labelled.trans labelled'.symm)

theorem identityRoot_eq_bindArrow (printed : expression.fingerprints witness = .ok prints) :
    expression.identityRoot witness =
      .ok (bindArrow (Dag.resultAt prints expression.root) ⟨.unit, .unit⟩) := by
  rw [identityRoot, Witness.checkCount_of_counted counted, printed, ← get_last,
    arrow_eq_ok_iff.mpr expression.arrow?_root]
  rfl

theorem exists_compute_eq (printed : expression.fingerprints witness = .ok prints) :
    ∃ annotated, Roots.compute expression witness = .ok ⟨expression.commitmentRoot,
      bindArrow (Dag.resultAt prints expression.root) ⟨.unit, .unit⟩, annotated⟩ := by
  rcases exists_annotatedRoots counted with ⟨roots, ran⟩
  refine ⟨Dag.resultAt roots expression.root, ?_⟩
  rw [Roots.compute, identityRoot_eq_bindArrow counted printed, annotatedRoot_eq_ok ran]
  rfl

end Values

/-- Different witnesses for an expression have the same commitment root and different identity roots,
unless the compression function has a collision among its applications that make these roots. Values
are bit strings whose length fits in 64 bits. -/
theorem identity_ne_of_witness_ne (counted : witness.size = expression.witnessNodes.length)
    (counted' : witness'.size = expression.witnessNodes.length) (different : witness ≠ witness')
    (short : ∀ bits ∈ witness.values ++ witness'.values, bits.length < 2 ^ 64)
    (free : Sha256.NoCollision
      (expression.identityTrail witness ++ expression.identityTrail witness')) :
    ∃ roots roots', Roots.compute expression witness = .ok roots ∧
      Roots.compute expression witness' = .ok roots' ∧
      expression.identityRoot witness = .ok roots.identity ∧
      expression.identityRoot witness' = .ok roots'.identity ∧
      roots.commitment = roots'.commitment ∧ roots.identity ≠ roots'.identity := by
  rcases exists_fingerprints counted with ⟨prints, printed⟩
  rcases exists_fingerprints counted' with ⟨prints', printed'⟩
  rcases exists_compute_eq counted printed with ⟨annotated, computed⟩
  rcases exists_compute_eq counted' printed' with ⟨annotated', computed'⟩
  refine ⟨_, _, computed, computed', identityRoot_eq_bindArrow counted printed,
    identityRoot_eq_bindArrow counted' printed', rfl, ?_⟩
  intro same
  rcases exists_value_ne counted counted' different with
    ⟨index, bits, bits', isNode, labelled, labelled', valuesDiffer⟩
  have shortBits := short bits (List.mem_append_left _ (mem_values_of_valueAt counted labelled))
  have shortBits' := short bits' (List.mem_append_right _ (mem_values_of_valueAt counted' labelled'))
  have printsDiffer := fingerprint_ne_of_value_ne printed printed' free isNode labelled labelled'
    shortBits shortBits' valuesDiffer
  have reached := expression.reaches_iff.mpr (exists_getElem_nodes isNode).1
  exact fingerprint_root_ne printed printed' free reached printsDiffer
    (fingerprint_root_eq printed printed' free same)

/-- An expression that is nothing but a witness node. -/
def loneWitness : Expression where
  dag := ⟨#[.witness], by decide, by decide⟩
  arrows := #[some ⟨.unit, .unit⟩]
  nonempty := by decide
  visible := by decide
  ordered := rfl
  typed := rfl

/-- No value and a single bit are told apart by the identity root of a lone witness node, and not by
its commitment root. -/
theorem identity_ne_of_witness_ne_loneWitness :
    Sha256.NoCollision (loneWitness.identityTrail ⟨[.empty]⟩ ++
      loneWitness.identityTrail ⟨[.ofBits [true]]⟩) ∧
    ∃ roots roots', Roots.compute loneWitness ⟨[.empty]⟩ = .ok roots ∧
      Roots.compute loneWitness ⟨[.ofBits [true]]⟩ = .ok roots' ∧
      roots.commitment = roots'.commitment ∧ roots.identity ≠ roots'.identity := by
  have free : Sha256.NoCollision (loneWitness.identityTrail ⟨[.empty]⟩ ++
      loneWitness.identityTrail ⟨[.ofBits [true]]⟩) := by
    decide +kernel
  rcases identity_ne_of_witness_ne rfl rfl (by decide) (by decide) free with
    ⟨roots, roots', computed, computed', -, -, same, different⟩
  exact ⟨free, roots, roots', computed, computed', same, different⟩

end Expression

end Simplicity
