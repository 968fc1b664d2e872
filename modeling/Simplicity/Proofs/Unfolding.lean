import Simplicity.Program
import Simplicity.Proofs.Dag

/-!
# Unfoldings

The unfolding of an expression is the tree that its root leads to. What is shared in the list of
nodes stands in the tree as often as it is referred to, and each position is labelled with what the
node there has: its combinator, its arrow, and the value of a witness node. A hidden node is labelled
with nothing but its root, which is part of the combinator.

Identity roots are made of nothing else: nodes with the same unfolding have the same identity root.
This needs no assumption on the hash.
-/

namespace Simplicity

/-- A tree of combinators with their arrows and values. -/
inductive Unfolding where
  | node (arrow : Option Arrow) (value : Option BitString) (combinator : Combinator Unfolding)

/-- The tree below a node, when the arrow and the value of each node are given. Past the nodes there
is nothing but a leaf without labels. -/
def Dag.unfold (dag : Dag) (arrows : Nat → Option Arrow) (values : Nat → Option BitString)
    (index : Nat) : Unfolding :=
  if inside : index < dag.nodes.size then
    .node (arrows index) (values index)
      ((dag.nodes[index]).mapMem fun child _ => dag.unfold arrows values child)
  else
    .node none none .witness
termination_by index
decreasing_by exact dag.backward index inside child (by assumption)

namespace Expression

variable (expression : Expression) (witness : Witness)

/-- The value of the node at an index, if it is a witness node. -/
def valueAt (index : Nat) : Option BitString :=
  (witness.spread expression).getD index none

/-- The arrow of the node at an index, if it is not hidden. -/
def visibleArrow? (index : Nat) : Option Arrow :=
  if hiddenAt expression.nodes index then none else expression.arrow? index

/-- The tree below a node of an expression with a witness. -/
def unfoldingAt (index : Nat) : Unfolding :=
  expression.dag.unfold expression.visibleArrow? (expression.valueAt witness) index

end Expression

/-- The tree of a program. -/
def Program.unfolding (program : Program) : Unfolding :=
  program.expression.unfoldingAt program.witness program.expression.root

theorem Combinator.map_eq_map_of_map_eq {ρ σ τ : Type} {left right : Combinator ρ}
    {f f' : ρ → σ} {g g' : ρ → τ} (same : left.map f = right.map f')
    (follow : ∀ child ∈ left.children, ∀ child' ∈ right.children, f child = f' child' →
      g child = g' child') : left.map g = right.map g' := by
  cases left <;> cases right <;> simp_all [map, mapMem, children]

namespace Expression

variable {expression : Expression} {witness : Witness}

theorem visibleArrow?_eq {index : Nat} (inside : index < expression.dag.nodes.size)
    (visible : (expression.dag.nodes[index]).isHidden = false) :
    expression.visibleArrow? index = expression.arrow? index := by
  simp [visibleArrow?, hiddenAt, nodes, inside, visible]

theorem unfoldingAt_eq {index : Nat} (inside : index < expression.dag.nodes.size) :
    expression.unfoldingAt witness index =
      .node (expression.visibleArrow? index) (expression.valueAt witness index)
        ((expression.dag.nodes[index]).map (expression.unfoldingAt witness)) := by
  rw [unfoldingAt, Dag.unfold, dif_pos inside]
  rfl

/-- Two nodes with the same tree have the same labels, and children with the same trees. -/
theorem eq_of_unfoldingAt_eq {expression' : Expression} {witness' : Witness} {index index' : Nat}
    (inside : index < expression.dag.nodes.size) (inside' : index' < expression'.dag.nodes.size)
    (same : expression.unfoldingAt witness index = expression'.unfoldingAt witness' index') :
    expression.visibleArrow? index = expression'.visibleArrow? index' ∧
      expression.valueAt witness index = expression'.valueAt witness' index' ∧
      (expression.dag.nodes[index]).map (expression.unfoldingAt witness) =
        (expression'.dag.nodes[index']).map (expression'.unfoldingAt witness') := by
  rw [unfoldingAt_eq inside, unfoldingAt_eq inside'] at same
  exact Unfolding.node.inj same

/-- The fingerprint of a combinator whose children have the given ones, from its value and arrow. -/
def fingerprintOf (value : Option BitString) (arrow : Option Arrow) :
    Combinator Digest → Option Digest
  | .witness => value.bind fun bits => arrow.map fun arrow =>
      RootState.identityWitness.absorb (Sha256.hash bits) arrow.target.root
  | .disconnect left right => some (RootState.identityDisconnect.absorb left right)
  | node => some node.commitment

theorem fingerprintOf_of_fingerprints {results : Vector Digest expression.dag.nodes.size}
    (ran : expression.fingerprints witness = .ok results) {index : Nat}
    (inside : index < expression.dag.nodes.size) :
    fingerprintOf (expression.valueAt witness index) (expression.visibleArrow? index)
        ((expression.dag.nodes[index]).map (Dag.resultAt results)) =
      some (Dag.resultAt results index) := by
  have stepped := Dag.scan_eq_ok ran inside
  have shape_eq : ((expression.dag.nodes[index]).map fun child =>
      (child, Dag.resultAt results child)).map Prod.snd =
        (expression.dag.nodes[index]).map (Dag.resultAt results) :=
    Combinator.map_map _ _ _
  simp only [shape_eq] at stepped
  generalize isShape : (expression.dag.nodes[index]).map (Dag.resultAt results) = shape at stepped ⊢
  cases shape with
  | witness =>
      have visible : (expression.dag.nodes[index]).isHidden = false := by
        rw [← Combinator.isHidden_map, isShape]
        rfl
      simp only [Witness.valueAt, Expression.arrow] at stepped
      simp only [fingerprintOf, valueAt, visibleArrow?_eq inside visible]
      cases value : (witness.spread expression).getD index none with
      | none =>
          rw [value] at stepped
          cases stepped
      | some bits =>
          cases arrow : expression.arrow? index with
          | none =>
              rw [value, arrow] at stepped
              cases stepped
          | some arrow' =>
              rw [value, arrow] at stepped
              exact congrArg some (Except.ok.inj stepped)
  | _ => exact congrArg some (Except.ok.inj stepped)

/-- Nodes with the same tree have the same fingerprint. -/
theorem fingerprint_eq_of_unfoldingAt_eq {results : Vector Digest expression.dag.nodes.size}
    (ran : expression.fingerprints witness = .ok results) {index index' : Nat}
    (inside : index < expression.dag.nodes.size) (inside' : index' < expression.dag.nodes.size)
    (same : expression.unfoldingAt witness index = expression.unfoldingAt witness index') :
    Dag.resultAt results index = Dag.resultAt results index' := by
  induction index using Nat.strongRecOn generalizing index' with
  | ind index ih =>
      rcases eq_of_unfoldingAt_eq inside inside' same with ⟨sameArrow, sameValue, sameShape⟩
      have sameResults : (expression.dag.nodes[index]).map (Dag.resultAt results) =
          (expression.dag.nodes[index']).map (Dag.resultAt results) := by
        apply Combinator.map_eq_map_of_map_eq sameShape
        intro child member child' member' sameChild
        have earlier := expression.dag.backward index inside child member
        have earlier' := expression.dag.backward index' inside' child' member'
        exact ih child earlier (Nat.lt_trans earlier inside) (Nat.lt_trans earlier' inside') sameChild
      have result := fingerprintOf_of_fingerprints ran inside
      have result' := fingerprintOf_of_fingerprints ran inside'
      rw [sameArrow, sameValue, sameResults, result'] at result
      exact (Option.some.inj result).symm

/-- The identity root of a combinator, from its fingerprint and its arrow. -/
def identityOf {ρ : Type} (fingerprint : Digest) (arrow : Option Arrow) :
    Combinator ρ → Option Digest
  | .hidden root => some root
  | _ => arrow.map (bindArrow fingerprint)

theorem identityOf_of_identityRoots {roots : Vector Digest expression.dag.nodes.size}
    (ran : expression.identityRoots witness = .ok roots) :
    ∃ fingerprints, expression.fingerprints witness = .ok fingerprints ∧
      ∀ index (inside : index < expression.dag.nodes.size),
        identityOf (Dag.resultAt fingerprints index) (expression.visibleArrow? index)
            (expression.dag.nodes[index]) = some (Dag.resultAt roots index) := by
  rcases exists_ok_of_bind ran with ⟨-, -, afterCount⟩
  rcases exists_ok_of_bind afterCount with ⟨fingerprints, printed, scanned⟩
  refine ⟨fingerprints, printed, ?_⟩
  intro index inside
  have stepped := Dag.scan_eq_ok scanned inside
  have print_eq : fingerprints.get ⟨index, inside⟩ = Dag.resultAt fingerprints index :=
    (Dag.resultAt_eq fingerprints inside).symm
  simp only [print_eq, Expression.arrow] at stepped
  generalize isNode : expression.dag.nodes[index] = node at stepped ⊢
  cases node with
  | hidden root => exact congrArg some (Except.ok.inj stepped)
  | _ =>
      rw [visibleArrow?_eq inside (congrArg Combinator.isHidden isNode)]
      cases arrow : expression.arrow? index with
      | none =>
          rw [arrow] at stepped
          cases stepped
      | some arrow' =>
          rw [arrow] at stepped
          exact congrArg some (Except.ok.inj stepped)

/-- Nodes with the same tree have the same identity root. -/
theorem identityRoot_eq_of_unfoldingAt_eq {roots : Vector Digest expression.dag.nodes.size}
    (ran : expression.identityRoots witness = .ok roots) {index index' : Nat}
    (inside : index < expression.dag.nodes.size) (inside' : index' < expression.dag.nodes.size)
    (same : expression.unfoldingAt witness index = expression.unfoldingAt witness index') :
    Dag.resultAt roots index = Dag.resultAt roots index' := by
  rcases identityOf_of_identityRoots ran with ⟨fingerprints, printed, identities⟩
  rcases eq_of_unfoldingAt_eq inside inside' same with ⟨sameArrow, -, sameShape⟩
  have samePrint := fingerprint_eq_of_unfoldingAt_eq printed inside inside' same
  have shape_eq : ∀ node : Node, identityOf (Dag.resultAt fingerprints index')
      (expression.visibleArrow? index') (node.map (expression.unfoldingAt witness)) =
        identityOf (Dag.resultAt fingerprints index') (expression.visibleArrow? index') node := by
    intro node
    cases node <;> rfl
  have result := identities index inside
  have result' := identities index' inside'
  rw [sameArrow, samePrint, ← shape_eq, sameShape, shape_eq, result'] at result
  exact (Option.some.inj result).symm

end Expression

end Simplicity
