import Simplicity.Proofs.Expression.Encoding
import Simplicity.Proofs.Expression.Acceptance
import Simplicity.Proofs.Program.Sharing

/-!
# One representation

Accepted programs with the same tree are written in one way. No two nodes of a program have the same
tree, so the nodes of two such programs match one to one, and the children of matching nodes match.
The walks from the two roots therefore leave matching nodes one after another. As both lists of nodes
are in canonical order, each node matches the one at its own index, and refers to the same children.

With the nodes, the types are the same. The values of the witness nodes are labels of the tree.
-/

namespace Simplicity

namespace Combinator

theorem forall₂_children_of_map_eq {ρ σ : Type} {left right : Combinator ρ} {f f' : ρ → σ}
    (same : left.map f = right.map f') :
    List.Forall₂ (fun child child' => f child = f' child') left.children right.children := by
  have sameChildren := congrArg children same
  rw [children_map, children_map, ← List.forall₂_eq_eq_eq, List.forall₂_map_left_iff,
    List.forall₂_map_right_iff] at sameChildren
  exact sameChildren

end Combinator

namespace Expression

/-- No two nodes of an expression with a witness have the same tree. -/
def MaximallyShared (expression : Expression) (witness : Witness) : Prop :=
  ∀ index index', index < expression.size → index' < expression.size →
    expression.unfoldingAt witness index = expression.unfoldingAt witness index' → index = index'

variable {expression expression' : Expression} {witness witness' : Witness}

/-- A node of one expression has the same tree as a node of another. -/
def SameTree (expression : Expression) (witness : Witness) (expression' : Expression)
    (witness' : Witness) (index index' : Nat) : Prop :=
  index < expression.size ∧ index' < expression'.size ∧
    expression.unfoldingAt witness index = expression'.unfoldingAt witness' index'

theorem forall₂_sameTree_children {index index' : Nat}
    (same : SameTree expression witness expression' witness' index index') {node node' : Node}
    (isNode : expression.dag.nodes[index]? = some node)
    (isNode' : expression'.dag.nodes[index']? = some node') :
    List.Forall₂ (SameTree expression witness expression' witness') node.children
      node'.children := by
  rcases same with ⟨inside, inside', sameTree⟩
  rcases Array.getElem?_eq_some_iff.mp isNode with ⟨-, rfl⟩
  rcases Array.getElem?_eq_some_iff.mp isNode' with ⟨-, rfl⟩
  have sameShape := (eq_of_unfoldingAt_eq inside inside' sameTree).2.2
  have sameChildren := Combinator.forall₂_children_of_map_eq sameShape
  rw [List.forall₂_iff_zip] at sameChildren ⊢
  refine ⟨sameChildren.1, ?_⟩
  intro child child' member
  have members := List.of_mem_zip member
  have earlier := expression.dag.backward index inside child members.1
  have earlier' := expression'.dag.backward index' inside' child' members.2
  exact ⟨Nat.lt_trans earlier inside, Nat.lt_trans earlier' inside', sameChildren.2 member⟩

theorem matching_of_maximallyShared (shared : expression.MaximallyShared witness)
    (shared' : expression'.MaximallyShared witness') :
    Matching expression.dag.nodes expression'.dag.nodes
      (SameTree expression witness expression' witness') where
  inside matched := matched.1
  inside' matched := matched.2.1
  children matched isNode isNode' := forall₂_sameTree_children matched isNode isNode'
  unique := by
    rintro index index' other other' ⟨inside, inside', same⟩ ⟨insideOther, insideOther', sameOther⟩
    constructor
    · rintro rfl
      exact shared' _ _ inside' insideOther' (same.symm.trans sameOther)
    · rintro rfl
      exact shared _ _ inside insideOther (same.trans sameOther.symm)

/-- If the roots have the same tree, so have the nodes at each index. -/
theorem sameTree_self (shared : expression.MaximallyShared witness)
    (shared' : expression'.MaximallyShared witness')
    (sameRoot : expression.unfoldingAt witness expression.root =
      expression'.unfoldingAt witness' expression'.root) :
    expression.size = expression'.size ∧
      ∀ index < expression.size, SameTree expression witness expression' witness' index index := by
  rcases expression.exists_postOrder with ⟨placement, walks, ordered⟩
  rcases expression'.exists_postOrder with ⟨placement', walks', ordered'⟩
  have matchedRoot : SameTree expression witness expression' witness' expression.root
      expression'.root :=
    ⟨expression.last.isLt, expression'.last.isLt, sameRoot⟩
  have alike := walks.alike (matching_of_maximallyShared shared shared') walks'
    (.cons matchedRoot .nil) .start (by simp [Placement.start, Expression.nodes])
    (by simp [Placement.start, Expression.nodes])
  have orders := alike.orders
  rw [ordered, ordered', Array.toList_range, Array.toList_range, List.forall₂_iff_get] at orders
  simp only [List.length_range, List.get_eq_getElem, List.getElem_range] at orders
  refine ⟨orders.1, ?_⟩
  intro index inside
  exact orders.2 index inside (orders.1 ▸ inside)

theorem eq_of_sameTree_self (size_eq : expression.size = expression'.size)
    (same : ∀ index < expression.size, SameTree expression witness expression' witness' index index)
    (shared' : expression'.MaximallyShared witness') : expression = expression' := by
  apply ext_dag
  apply Dag.ext_nodes
  apply Array.ext size_eq
  intro index inside inside'
  have sameShape := (eq_of_unfoldingAt_eq inside inside' (same index inside).2.2).2.2
  rw [← Combinator.map_id expression.dag.nodes[index],
    ← Combinator.map_id expression'.dag.nodes[index]]
  apply Combinator.map_eq_map_of_map_eq sameShape
  intro child member child' member' sameChild
  have earlier := expression.dag.backward index inside child member
  have earlier' := expression'.dag.backward index inside' child' member'
  have sameSelf := (same child (Nat.lt_trans earlier inside)).2
  exact shared' _ _ sameSelf.1 (Nat.lt_trans earlier' inside') (sameSelf.2.symm.trans sameChild)

theorem length_witnessNodes (expression : Expression) :
    expression.witnessNodes.length =
      (expression.nodes.toList.filter Combinator.isWitness).length := by
  have listed : (List.range expression.size).map expression.node? =
      expression.nodes.toList.map some := by
    apply List.ext_getElem
    · simp [size, nodes, Dag.size]
    · intro index inside _
      have inside' : index < expression.dag.nodes.size := by simpa [size, Dag.size] using inside
      simp [node?, nodes, inside']
  have filtered := congrArg (List.filter (Option.any Combinator.isWitness)) listed
  rw [List.filter_map, List.filter_map] at filtered
  have lengths := congrArg List.length filtered
  rw [List.length_map, List.length_map] at lengths
  exact lengths

end Expression

namespace Witness

theorem size_spreadOver (nodes : List Node) (values : List BitString)
    (labels : Array (Option BitString)) :
    (spreadOver nodes values labels).size = labels.size + nodes.length := by
  induction nodes generalizing values labels with
  | nil => rfl
  | cons node rest ih =>
      rw [spreadOver]
      split
      · rw [ih, Array.size_push, List.length_cons]
        omega
      · rw [ih, Array.size_push, List.length_cons]
        omega

/-- If there are as many values as witness nodes, the labels of the nodes are the values. -/
theorem filterMap_spreadOver {nodes : List Node} {values : List BitString}
    (labels : Array (Option BitString))
    (count : values.length = (nodes.filter Combinator.isWitness).length) :
    (spreadOver nodes values labels).toList.filterMap id =
      labels.toList.filterMap id ++ values := by
  induction nodes generalizing values labels with
  | nil =>
      have none : values = [] := List.length_eq_zero_iff.mp count
      simp [spreadOver, none]
  | cons node rest ih =>
      rw [spreadOver]
      by_cases isWitness : node.isWitness
      · rw [List.filter_cons_of_pos isWitness, List.length_cons] at count
        rcases values with _ | ⟨value, values⟩
        · simp at count
        · have countRest : values.length = (rest.filter Combinator.isWitness).length :=
            Nat.succ.inj count
          rw [if_pos isWitness, List.tail_cons, ih _ countRest]
          simp
      · rw [List.filter_cons_of_neg isWitness] at count
        rw [if_neg isWitness, ih _ count]
        simp

/-- A witness with a value for each witness node is known from the labels of the nodes. -/
theorem values_eq_of_spread {witness : Witness} {expression : Expression}
    (count : witness.size = expression.witnessNodes.length) :
    witness.values = (witness.spread expression).toList.filterMap id := by
  rw [Expression.length_witnessNodes] at count
  rw [spread, filterMap_spreadOver #[] count]
  rfl

/-- Witnesses that give each node the same label are spread alike. -/
theorem spread_eq_of_valueAt_eq {expression : Expression} {witness witness' : Witness}
    (same : ∀ index < expression.size,
      expression.valueAt witness index = expression.valueAt witness' index) :
    witness.spread expression = witness'.spread expression := by
  have size_eq : ∀ witness : Witness, (witness.spread expression).size = expression.size := by
    intro witness
    rw [spread, size_spreadOver]
    simp [Expression.size, Expression.nodes, Dag.size]
  apply Array.ext ((size_eq witness).trans (size_eq witness').symm)
  intro index inside inside'
  have sameValue := same index (size_eq witness ▸ inside)
  simpa [Expression.valueAt, inside, inside'] using sameValue

end Witness

namespace Program

theorem spread_eq_of_sameTree {expression : Expression} {witness witness' : Witness}
    (same : ∀ index < expression.size,
      expression.SameTree witness expression witness' index index) :
    witness.spread expression = witness'.spread expression := by
  apply Witness.spread_eq_of_valueAt_eq
  intro index inside
  exact (Expression.eq_of_unfoldingAt_eq inside inside (same index inside).2.2).2.1

variable {expression expression' : Expression} {witness witness' : Witness}
  {limits limits' : Limits} {program program' : Program}

theorem maximallyShared_of_analyse (accepted : analyse expression witness limits = .ok program) :
    expression.MaximallyShared witness :=
  fun _ _ inside inside' same => eq_of_unfoldingAt_eq accepted inside inside' same

/-- Accepted expressions and witnesses with the same tree are the same. -/
theorem eq_of_analyse (accepted : analyse expression witness limits = .ok program)
    (accepted' : analyse expression' witness' limits' = .ok program')
    (sameRoot : expression.unfoldingAt witness expression.root =
      expression'.unfoldingAt witness' expression'.root) :
    expression = expression' ∧ witness = witness' := by
  have shared := maximallyShared_of_analyse accepted
  have shared' := maximallyShared_of_analyse accepted'
  rcases Expression.sameTree_self shared shared' sameRoot with ⟨size_eq, same⟩
  have sameExpression := Expression.eq_of_sameTree_self size_eq same shared'
  subst sameExpression
  refine ⟨rfl, congrArg Witness.mk ?_⟩
  rw [Witness.values_eq_of_spread (size_witness_of_analyse accepted),
    Witness.values_eq_of_spread (size_witness_of_analyse accepted'), spread_eq_of_sameTree same]

theorem exists_encode (program : Program) (small : program.expression.size ≤ maxNatural) :
    ∃ bytes, program.encode = .ok bytes := by
  rcases program.expression.exists_encode_iff.mpr small with ⟨written, encodes⟩
  exact ⟨(written, program.witness.encode), by rw [encode, encodes]; rfl⟩

/-- Accepted programs with the same tree have the same nodes and the same witness, and therefore the
same bytes. The limits need not be the same. There are bytes unless there are too many nodes for
their number to be written. -/
theorem encode_eq_of_unfolding_eq (accepted : analyse expression witness limits = .ok program)
    (accepted' : analyse expression' witness' limits' = .ok program')
    (same : program.unfolding = program'.unfolding) :
    program.expression.nodes = program'.expression.nodes ∧ program.witness = program'.witness ∧
      program.encode = program'.encode ∧
      (program.expression.size ≤ maxNatural → ∃ bytes, program.encode = .ok bytes) := by
  rcases analyse_eq_ok accepted with ⟨rfl, rfl, -⟩
  rcases analyse_eq_ok accepted' with ⟨rfl, rfl, -⟩
  rcases eq_of_analyse accepted accepted' same with ⟨sameExpression, sameWitness⟩
  refine ⟨congrArg Expression.nodes sameExpression, sameWitness, ?_, program.exists_encode⟩
  rw [encode, encode, sameExpression, sameWitness]

/-- A lone witness node with the empty value is accepted under both limits, as one program. -/
theorem encode_eq_of_loneWitness : ∃ expression program program',
    Expression.ofNodes #[.witness] = .ok expression ∧
      analyse expression ⟨[.empty]⟩ .standard = .ok program ∧
      analyse expression ⟨[.empty]⟩ .strict = .ok program' ∧
      program.unfolding = program'.unfolding ∧ program.encode = program'.encode := by
  have accepted : (Expression.ofNodes #[.witness] >>= fun expression =>
      analyse expression ⟨[.empty]⟩ .standard >>= fun _ =>
        analyse expression ⟨[.empty]⟩ .strict).isOk = true := by
    decide +kernel
  cases ran : Expression.ofNodes #[.witness] >>= fun expression =>
      analyse expression ⟨[.empty]⟩ .standard >>= fun _ =>
        analyse expression ⟨[.empty]⟩ .strict with
  | error error =>
      rw [ran] at accepted
      cases accepted
  | ok program' =>
      rcases exists_ok_of_bind ran with ⟨expression, made, analysed⟩
      rcases exists_ok_of_bind analysed with ⟨program, standard, strict⟩
      have same : program.unfolding = program'.unfolding := by
        rcases analyse_eq_ok standard with ⟨rfl, sameWitness, -⟩
        rcases analyse_eq_ok strict with ⟨sameExpression, sameWitness', -⟩
        rw [unfolding, unfolding, sameExpression, sameWitness, sameWitness']
      exact ⟨expression, program, program', made, standard, strict, same,
        (encode_eq_of_unfolding_eq standard strict same).2.2.1⟩

end Program

end Simplicity
