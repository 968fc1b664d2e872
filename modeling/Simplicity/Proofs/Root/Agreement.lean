import Simplicity.Proofs.Expression.Covering
import Simplicity.Proofs.Root.Identity

/-!
# Where fingerprints are commitment roots

Fingerprints are made by a pass of their own, which treats witness nodes and delegations in another way
than the pass that makes commitment roots, and all other combinators in the same way. So a node that leads
to neither has its commitment root as its fingerprint.

A choice and the assertion of one of its branches absorb the same when the branch that was pruned leads to
neither: what the hidden node carries is the commitment root of that branch, and the choice absorbs its
fingerprint. If they also have the same type, their identity roots cannot tell them apart.
-/

namespace Simplicity

namespace Expression

/-- The fingerprint of a combinator whose children have the given ones, from its value and its type if it
is a witness node. -/
def fingerprintStep (value : Except Error BitString) (arrow : Except Error Arrow)
    (node : Combinator Digest) : Except Error Digest :=
  match node with
  | .hidden root => .ok root
  | .witness => do
      let bits ← value
      let arrow ← arrow
      return RootState.identityWitness.absorb (Sha256.hash bits) arrow.target.root
  | .disconnect left right => .ok (RootState.identityDisconnect.absorb left right)
  | .iden | .unit => .ok (RootState.commitment node.tag)
  | .injl child | .injr child | .take child | .drop child =>
      .ok ((RootState.commitment node.tag).absorbRight child)
  | .assertl left right | .assertr left right =>
      .ok ((RootState.commitment .case).absorb left right)
  | .comp left right | .case left right | .pair left right =>
      .ok ((RootState.commitment node.tag).absorb left right)

/-- The pass that makes fingerprints, written out for all combinators. -/
def firstPass (expression : Expression) (witness : Witness) :
    Except Error (Vector Digest expression.dag.nodes.size) :=
  expression.dag.scan fun index node =>
    fingerprintStep (witness.valueAt expression (witness.spread expression) index)
      (expression.arrow index) (node.map Prod.snd)

/-- No witness node and no delegation can be reached from the node. -/
def Plain (expression : Expression) (index : Nat) : Prop :=
  ∀ {below : Nat} {node : Node}, Reaches expression.nodes index below →
    expression.node? below = some node → node.tag ≠ .witness ∧ node.tag ≠ .disconnect

section Fingerprint

variable {expression : Expression} {witness : Witness} {index : Nat}
  {prints : Vector Digest expression.dag.nodes.size}

theorem fingerprints_eq_firstPass (expression : Expression) (witness : Witness) :
    expression.fingerprints witness = expression.firstPass witness := by
  refine congrArg (Dag.scan expression.dag) (funext fun index => funext fun node => ?_)
  cases node <;> rfl

/-- The two passes treat a combinator in the same way unless it is a witness node or a delegation. -/
theorem fingerprintStep_eq_commitment {value : Except Error BitString} {arrow : Except Error Arrow}
    {node : Combinator Digest} (shared : node.tag ≠ .witness ∧ node.tag ≠ .disconnect) :
    fingerprintStep value arrow node = .ok node.commitment := by
  cases node with
  | witness => exact absurd rfl shared.1
  | disconnect => exact absurd rfl shared.2
  | _ => rfl

/-- A node that is neither a witness node nor a delegation has the fingerprint that its commitment root
would be if its children had their fingerprints for commitment roots. -/
theorem fingerprint_eq {node : Node} (printed : expression.fingerprints witness = .ok prints)
    (isNode : expression.node? index = some node)
    (shared : node.tag ≠ .witness ∧ node.tag ≠ .disconnect) :
    Dag.resultAt prints index = (node.map (Dag.resultAt prints)).commitment := by
  rcases exists_getElem_nodes isNode with ⟨inside, rfl⟩
  rw [fingerprints_eq_firstPass] at printed
  have stepped := Dag.scan_eq_ok printed inside
  rw [Combinator.map_map, fingerprintStep_eq_commitment (by rwa [Combinator.tag_map])] at stepped
  exact (Except.ok.inj stepped).symm

theorem Plain.child {node : Node} {child : Nat} (plain : expression.Plain index)
    (isNode : expression.node? index = some node) (member : child ∈ node.children) :
    expression.Plain child :=
  fun reached => plain ((Reaches.root.child isNode member).trans reached)

/-- A node that leads to no witness node and no delegation has its commitment root as its fingerprint. -/
theorem fingerprint_eq_commitmentRoot (printed : expression.fingerprints witness = .ok prints)
    (inside : index < expression.dag.nodes.size) (plain : expression.Plain index) :
    Dag.resultAt prints index = Dag.resultAt expression.commitmentRoots index := by
  induction index using Nat.strongRecOn with
  | ind index ih =>
      have isNode : expression.node? index = some expression.dag.nodes[index] :=
        Array.getElem?_eq_getElem inside
      rw [fingerprint_eq printed isNode (plain .root isNode), resultAt_commitmentRoots isNode]
      congr 1
      apply Combinator.map_congr
      intro child member
      have earlier := expression.dag.backward index inside child member
      exact ih child earlier (Nat.lt_trans earlier inside) (plain.child isNode member)

end Fingerprint

section Identity

variable {expression : Expression} {witness : Witness} {index index' : Nat} {node node' : Node}
  {prints roots : Vector Digest expression.dag.nodes.size}

/-- Nodes that are not hidden have the same identity root if they have the same fingerprint and the same
type. -/
theorem identity_eq_of_fingerprint_eq (printed : expression.fingerprints witness = .ok prints)
    (ran : expression.identityRoots witness = .ok roots)
    (isNode : expression.node? index = some node) (isNode' : expression.node? index' = some node')
    (visible : node.isHidden = false) (visible' : node'.isHidden = false)
    (sameArrow : expression.arrow? index = expression.arrow? index')
    (samePrint : Dag.resultAt prints index = Dag.resultAt prints index') :
    Dag.resultAt roots index = Dag.resultAt roots index' := by
  rcases exists_getElem_nodes isNode with ⟨inside, rfl⟩
  rcases exists_getElem_nodes isNode' with ⟨inside', rfl⟩
  rcases identityOf_of_identityRoots ran with ⟨prints', printed', identities⟩
  cases printed.symm.trans printed'
  have identity := identities index inside
  have identity' := identities index' inside'
  rw [identityOf_of_visible visible, visibleArrow?_eq inside visible, sameArrow, samePrint] at identity
  rw [identityOf_of_visible visible', visibleArrow?_eq inside' visible', identity] at identity'
  exact Option.some.inj identity'

/-- A choice has the fingerprint of the assertion of one of its branches if the other branch leads to no
witness node and no delegation. -/
theorem fingerprint_eq_of_assertion (keep : Branch) {left right hidden : Nat}
    (printed : expression.fingerprints witness = .ok prints)
    (isChoice : expression.node? index = some (.case left right))
    (isAssertion : expression.node? index' = some (keep.assertion left right hidden))
    (isHidden : expression.node? hidden = some
      (.hidden (Dag.resultAt expression.commitmentRoots (keep.pruned left right))))
    (plain : expression.Plain (keep.pruned left right)) :
    Dag.resultAt prints index = Dag.resultAt prints index' := by
  rcases exists_getElem_nodes isChoice with ⟨inside, choice⟩
  have member : keep.pruned left right ∈ (Combinator.case left right).children := by
    cases keep <;> simp [Branch.pruned, Combinator.children]
  have earlier := expression.dag.backward index inside _ (choice ▸ member)
  have prunedPrint := fingerprint_eq_commitmentRoot printed (Nat.lt_trans earlier inside) plain
  have hiddenPrint := fingerprint_eq printed isHidden (by simp [Combinator.tag])
  change Dag.resultAt prints hidden = Dag.resultAt expression.commitmentRoots _ at hiddenPrint
  rw [fingerprint_eq printed isChoice (by simp [Combinator.tag]),
    fingerprint_eq printed isAssertion (by cases keep <;> simp [Branch.assertion, Combinator.tag]),
    Branch.map_assertion, hiddenPrint, ← prunedPrint, keep.apply_pruned (Dag.resultAt prints)]
  exact (keep.commitment_assertion _ _).symm

end Identity

/-- With as many values as there are witness nodes, every node has a fingerprint and an identity root. The
fingerprint is the commitment root where no witness node and no delegation can be reached. So a choice and
the assertion of one of its branches have the same identity root if they have the same type, the hidden
node carries the commitment root of the other branch, and that branch leads to no witness node and no
delegation. -/
theorem fingerprint_eq_commitmentRoot_of_plain {expression : Expression} {witness : Witness}
    (counted : witness.size = expression.witnessNodes.length) :
    ∃ prints roots, expression.firstPass witness = .ok prints ∧
      expression.fingerprints witness = .ok prints ∧ expression.identityRoots witness = .ok roots ∧
      (∀ index : Fin expression.dag.nodes.size, expression.Plain index →
        prints.get index = expression.commitmentRoots.get index) ∧
      ∀ (choice assertion : Fin expression.dag.nodes.size) (keep : Branch) (left right hidden : Nat),
        expression.node? choice = some (.case left right) →
        expression.node? assertion = some (keep.assertion left right hidden) →
        expression.node? hidden =
          some (.hidden (Dag.resultAt expression.commitmentRoots (keep.pruned left right))) →
        expression.arrow? choice = expression.arrow? assertion →
        expression.Plain (keep.pruned left right) →
        roots.get choice = roots.get assertion := by
  rcases exists_fingerprints counted with ⟨prints, printed⟩
  rcases exists_identityRoots counted with ⟨roots, ran⟩
  have get_eq (results : Vector Digest expression.dag.nodes.size)
      (index : Fin expression.dag.nodes.size) : results.get index = Dag.resultAt results index :=
    (Dag.resultAt_eq results index.isLt).symm
  refine ⟨prints, roots, (fingerprints_eq_firstPass expression witness).symm.trans printed, printed,
    ran, ?_, ?_⟩
  · intro index plain
    rw [get_eq, get_eq]
    exact fingerprint_eq_commitmentRoot printed index.isLt plain
  · intro choice assertion keep left right hidden isChoice isAssertion isHidden sameArrow plain
    rw [get_eq, get_eq]
    exact identity_eq_of_fingerprint_eq printed ran isChoice isAssertion rfl
      (by cases keep <;> rfl) sameArrow
      (fingerprint_eq_of_assertion keep printed isChoice isAssertion isHidden plain)

/-- A choice between two leaves beside the assertion of its left branch. -/
def choiceAndAssertion : Expression where
  dag := ⟨#[.witness, .unit, .case 1 1, .hidden (RootState.commitment .unit), .assertl 1 3, .pair 2 4,
    .comp 0 5, .comp 6 1], by decide, by decide⟩
  arrows := #[some ⟨.unit, .prod .bit .unit⟩, some ⟨.prod .unit .unit, .unit⟩,
    some ⟨.prod .bit .unit, .unit⟩, none, some ⟨.prod .bit .unit, .unit⟩,
    some ⟨.prod .bit .unit, .prod .unit .unit⟩, some ⟨.unit, .prod .unit .unit⟩,
    some ⟨.unit, .unit⟩]
  nonempty := by decide
  visible := by decide
  ordered := by decide +kernel
  typed := rfl

theorem fingerprint_eq_commitmentRoot_of_plain_choiceAndAssertion :
    choiceAndAssertion.Plain 1 ∧
    ∃ prints roots, choiceAndAssertion.fingerprints ⟨[.ofBits [true]]⟩ = .ok prints ∧
      choiceAndAssertion.identityRoots ⟨[.ofBits [true]]⟩ = .ok roots ∧
      prints.get ⟨1, by decide⟩ = choiceAndAssertion.commitmentRoots.get ⟨1, by decide⟩ ∧
      roots.get ⟨2, by decide⟩ = roots.get ⟨4, by decide⟩ := by
  have plain : choiceAndAssertion.Plain 1 := by
    intro below node reached isNode
    have here : below = 1 := by
      clear isNode
      induction reached with
      | root => rfl
      | child _ isNode member ih =>
          subst ih
          cases isNode
          cases member
    subst here
    cases isNode
    decide
  have isHidden : choiceAndAssertion.node? 3 = some
      (.hidden (Dag.resultAt choiceAndAssertion.commitmentRoots 1)) := by
    rw [resultAt_commitmentRoots (show choiceAndAssertion.node? 1 = some .unit from rfl)]
    rfl
  rcases @fingerprint_eq_commitmentRoot_of_plain choiceAndAssertion ⟨[.ofBits [true]]⟩ rfl with
    ⟨prints, roots, -, printed, ran, agree, same⟩
  exact ⟨plain, prints, roots, printed, ran, agree _ plain,
    same ⟨2, by decide⟩ ⟨4, by decide⟩ .left 1 1 3 rfl rfl isHidden rfl plain⟩

end Expression

end Simplicity
