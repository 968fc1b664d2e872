import Simplicity.Proofs.Unfolding

/-!
# Maximal sharing

A program that has been accepted has no two nodes with the same unfolding. The check compares
identity roots, and hidden nodes only with hidden ones; but nodes with the same unfolding are of the
same kind and have the same identity root, whatever the hash is.
-/

namespace Simplicity

namespace SeenNodes

/-- The nodes met so far that are of one kind. -/
def table (seen : SeenNodes) (hidden : Bool) : Std.TreeMap Nat Nat :=
  if hidden then seen.hidden else seen.visible

/-- Meeting a node succeeds if its root is new for its kind, and from then on the root is known. -/
theorem meet_eq_ok {seen seen' : SeenNodes} {index : Nat} {hidden : Bool} {root : Digest}
    (meets : seen.meet index hidden root = .ok seen') :
    (seen.table hidden)[root.toNat]? = none ∧ (seen'.table hidden)[root.toNat]? ≠ none ∧
      ∀ (kind : Bool) (key : Nat), (seen.table kind)[key]? ≠ none →
        (seen'.table kind)[key]? ≠ none := by
  unfold meet at meets
  cases hidden with
  | true =>
      simp only [↓reduceIte] at meets
      split at meets
      case h_1 => cases meets
      case h_2 isNew =>
        cases meets
        refine ⟨isNew, by simp [table], ?_⟩
        intro kind key known
        cases kind with
        | true =>
            simp only [table, ↓reduceIte, Std.TreeMap.getElem?_insert] at known ⊢
            split
            · simp
            · exact known
        | false => exact known
  | false =>
      simp only [Bool.false_eq_true, ↓reduceIte] at meets
      split at meets
      case h_1 => cases meets
      case h_2 isNew =>
        cases meets
        refine ⟨isNew, by simp [table], ?_⟩
        intro kind key known
        cases kind with
        | true => exact known
        | false =>
            simp only [table, Bool.false_eq_true, ↓reduceIte, Std.TreeMap.getElem?_insert] at known ⊢
            split
            · simp
            · exact known

/-- The nodes that are met have different roots within their kind, and none was known before. -/
theorem pairwise_of_foldlM_meet {entries : List ((Node × Digest) × Nat)} {seen seen' : SeenNodes}
    (meets : entries.foldlM
      (fun seen entry => seen.meet entry.2 entry.1.1.isHidden entry.1.2) seen = .ok seen') :
    (∀ entry ∈ entries, (seen.table entry.1.1.isHidden)[entry.1.2.toNat]? = none) ∧
      entries.Pairwise fun first second => first.1.1.isHidden = second.1.1.isHidden →
        first.1.2 ≠ second.1.2 := by
  induction entries generalizing seen with
  | nil => simp
  | cons entry entries ih =>
      rw [List.foldlM_cons] at meets
      cases met : seen.meet entry.2 entry.1.1.isHidden entry.1.2 with
      | error error =>
          rw [met] at meets
          cases meets
      | ok middle =>
          rw [met] at meets
          rcases ih meets with ⟨unknown, pairwise⟩
          rcases meet_eq_ok met with ⟨isNew, isKnown, keeps⟩
          constructor
          · rw [List.forall_mem_cons]
            refine ⟨isNew, ?_⟩
            intro later member
            by_contra known
            exact keeps _ _ known (unknown later member)
          · rw [List.pairwise_cons]
            refine ⟨?_, pairwise⟩
            intro later member sameKind sameRoot
            apply isKnown
            rw [sameKind, sameRoot]
            exact unknown later member

end SeenNodes

/-- Nodes of one kind that pass the check for sharing have different roots. -/
theorem root_ne_of_checkSharing {nodes : List Node} {roots : List Digest}
    (checked : checkSharing nodes roots = .ok ()) {first second : Nat} (lt : first < second)
    {node node' : Node} {root root' : Digest} (isNode : nodes[first]? = some node)
    (isNode' : nodes[second]? = some node') (isRoot : roots[first]? = some root)
    (isRoot' : roots[second]? = some root') (sameKind : node.isHidden = node'.isHidden) :
    root ≠ root' := by
  rcases exists_ok_of_bind checked with ⟨seen, met, -⟩
  have pairwise := (SeenNodes.pairwise_of_foldlM_meet met).2
  rw [List.pairwise_iff_getElem] at pairwise
  rcases List.getElem?_eq_some_iff.mp isNode with ⟨inside, rfl⟩
  rcases List.getElem?_eq_some_iff.mp isNode' with ⟨inside', rfl⟩
  rcases List.getElem?_eq_some_iff.mp isRoot with ⟨insideRoots, rfl⟩
  rcases List.getElem?_eq_some_iff.mp isRoot' with ⟨insideRoots', rfl⟩
  have different := pairwise first second (by simp; omega) (by simp; omega) lt
  simp only [List.getElem_zipIdx, List.getElem_zip] at different
  exact different sameKind

namespace Program

variable {expression : Expression} {witness : Witness} {limits : Limits} {program : Program}

/-- What has been checked of an expression and a witness that make a program. -/
theorem analyse_eq_ok (accepted : analyse expression witness limits = .ok program) :
    program.expression = expression ∧ program.witness = witness ∧
      expression.annotatedRoot witness = .ok program.roots.annotated ∧
      ∃ roots, expression.identityRoots witness = .ok roots ∧
        checkSharing expression.nodes.toList roots.toList = .ok () := by
  rcases exists_ok_of_bind accepted with ⟨-, -, afterLimits⟩
  rcases exists_ok_of_bind afterLimits with ⟨roots, rooted, afterRoots⟩
  rcases exists_ok_of_bind afterRoots with ⟨_, shared, afterSharing⟩
  rcases exists_ok_of_bind afterSharing with ⟨bounds, -, afterBounds⟩
  rcases exists_ok_of_bind afterBounds with ⟨-, -, afterBudget⟩
  rcases exists_ok_of_bind afterBudget with ⟨annotated, annotates, made⟩
  cases made
  exact ⟨rfl, rfl, annotates, roots, rooted, shared⟩

/-- An expression and a witness make a program exactly if all checks succeed, and the program keeps
what has been computed on the way. -/
theorem analyse_eq_ok_iff : analyse expression witness limits = .ok program ↔
    limits.check = .ok () ∧ ∃ roots, expression.identityRoots witness = .ok roots ∧
      checkSharing expression.nodes.toList roots.toList = .ok () ∧
      ∃ bounds, expression.bounds = .ok bounds ∧ checkBudget limits bounds.cost = .ok () ∧
        ∃ annotated, expression.annotatedRoot witness = .ok annotated ∧
          program = ⟨expression, witness,
            ⟨expression.commitmentRoot, roots.get expression.last, annotated⟩, bounds⟩ := by
  constructor
  · intro accepted
    rcases exists_ok_of_bind accepted with ⟨⟨⟩, valid, afterLimits⟩
    rcases exists_ok_of_bind afterLimits with ⟨roots, rooted, afterRoots⟩
    rcases exists_ok_of_bind afterRoots with ⟨⟨⟩, shared, afterSharing⟩
    rcases exists_ok_of_bind afterSharing with ⟨bounds, bounded, afterBounds⟩
    rcases exists_ok_of_bind afterBounds with ⟨⟨⟩, affordable, afterBudget⟩
    rcases exists_ok_of_bind afterBudget with ⟨annotated, annotates, made⟩
    exact ⟨valid, roots, rooted, shared, bounds, bounded, affordable, annotated, annotates,
      (Except.ok.inj made).symm⟩
  · rintro ⟨valid, roots, rooted, shared, bounds, bounded, affordable, annotated, annotates, rfl⟩
    simp only [analyse, valid, rooted, bind, Except.bind, shared, bounded, affordable, annotates]
    rfl

theorem size_witness_of_analyse (accepted : analyse expression witness limits = .ok program) :
    witness.size = expression.witnessNodes.length := by
  rcases analyse_eq_ok accepted with ⟨-, -, -, roots, rooted, -⟩
  rcases exists_ok_of_bind rooted with ⟨_, counted, -⟩
  simp only [Witness.checkCount] at counted
  split at counted
  case isTrue same => exact same
  case isFalse => cases counted

/-- Two nodes of a program, of which one comes first, have different trees. -/
theorem unfoldingAt_ne_of_lt (accepted : analyse expression witness limits = .ok program)
    {index index' : Nat} (lt : index < index') (inside' : index' < expression.dag.nodes.size) :
    expression.unfoldingAt witness index ≠ expression.unfoldingAt witness index' := by
  intro same
  have inside := Nat.lt_trans lt inside'
  rcases analyse_eq_ok accepted with ⟨-, -, -, roots, rooted, shared⟩
  have sameRoot := Expression.identityRoot_eq_of_unfoldingAt_eq rooted inside inside' same
  have sameKind : (expression.dag.nodes[index]).isHidden =
      (expression.dag.nodes[index']).isHidden := by
    have sameShape := (Expression.eq_of_unfoldingAt_eq inside inside' same).2.2
    simpa using congrArg Combinator.isHidden sameShape
  rw [Dag.resultAt_eq roots inside, Dag.resultAt_eq roots inside'] at sameRoot
  apply root_ne_of_checkSharing shared lt ?_ ?_ ?_ ?_ sameKind sameRoot
  · simp [Expression.nodes, inside]
  · simp [Expression.nodes, inside']
  · simp [inside]
  · simp [inside']

/-- No two nodes of a program have the same tree. -/
theorem eq_of_unfoldingAt_eq (accepted : analyse expression witness limits = .ok program)
    {index index' : Nat} (inside : index < expression.dag.nodes.size)
    (inside' : index' < expression.dag.nodes.size)
    (same : expression.unfoldingAt witness index = expression.unfoldingAt witness index') :
    index = index' := by
  rcases Nat.lt_trichotomy index index' with lt | eq | gt
  · exact absurd same (unfoldingAt_ne_of_lt accepted lt inside')
  · exact eq
  · exact absurd same.symm (unfoldingAt_ne_of_lt accepted gt inside)

end Program

end Simplicity
