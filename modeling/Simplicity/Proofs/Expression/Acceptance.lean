import Simplicity.Proofs.CanonicalOrder

/-!
# Which nodes make an expression

`Acceptable` says of a list of nodes what `Expression.ofNodes` checks, without regard to how it is
checked: nodes are settled one after another while they are listed, but which of them are hidden does
not change on the way, so all of them can be settled at once; and the walk that the order is checked
with comes to the recursive one.

The nodes of an expression are settled and make the same expression again.
-/

namespace Simplicity

namespace Combinator

variable {ρ : Type} {hidden : ρ → Bool} {node result : Combinator ρ}

/-- A choice with exactly one hidden branch as the assertion of the other branch. -/
def normalize (hidden : ρ → Bool) : Combinator ρ → Combinator ρ
  | .case left right =>
      match hidden left, hidden right with
      | false, true => .assertl left right
      | true, false => .assertr left right
      | _, _ => .case left right
  | node => node

/-- Assertions have a hidden child on the side that is pruned and a visible one on the other, and no
other combinator has a hidden child. -/
def HidesPruned (hidden : ρ → Bool) : Combinator ρ → Prop
  | .assertl left right => hidden left = false ∧ hidden right = true
  | .assertr left right => hidden left = true ∧ hidden right = false
  | node => ∀ child ∈ node.children, hidden child = false

theorem settled_iff_hidesPruned : node.settled hidden = true ↔ node.HidesPruned hidden := by
  cases node <;> simp [settled, HidesPruned, children]

/-- A combinator is settled as its normal form, if that hides pruned branches only. A choice between
two hidden branches is not. -/
theorem settle?_eq_some_iff :
    node.settle? hidden = some result ↔
      result = node.normalize hidden ∧ result.HidesPruned hidden := by
  simp only [settle?, Option.ite_none_right_eq_some, Option.some.injEq, settled_iff_hidesPruned]
  have sameForm : (node.assertVisible hidden).HidesPruned hidden ∨
      (node.normalize hidden).HidesPruned hidden →
        node.assertVisible hidden = node.normalize hidden := by
    cases node with
    | case left right =>
        cases isLeft : hidden left <;> cases isRight : hidden right <;>
          simp [assertVisible, normalize, HidesPruned, children, isLeft, isRight]
    | _ => exact fun _ => rfl
  constructor
  · rintro ⟨hides, rfl⟩
    exact ⟨sameForm (.inl hides), hides⟩
  · rintro ⟨rfl, hides⟩
    rw [sameForm (.inr hides)]
    exact ⟨hides, rfl⟩

@[simp]
theorem isHidden_normalize : (node.normalize hidden).isHidden = node.isHidden := by
  cases node with
  | case left right =>
      simp only [normalize]
      split <;> rfl
  | _ => rfl

@[simp]
theorem children_normalize : (node.normalize hidden).children = node.children := by
  cases node with
  | case left right =>
      simp only [normalize]
      split <;> rfl
  | _ => rfl

end Combinator

/-- The nodes of a list in normal form. -/
def normalized (nodes : Array Node) : Array Node :=
  nodes.map (·.normalize (hiddenAt nodes))

/-- The lists of nodes that make an expression. -/
structure Acceptable (nodes : Array Node) : Prop where
  nonempty : 0 < nodes.size
  childrenFirst : ChildrenFirst nodes
  hidesPruned : ∀ node ∈ normalized nodes, node.HidesPruned (hiddenAt nodes)
  rootVisible : hiddenAt nodes (nodes.size - 1) = false
  ordered : canonicalOrder nodes (nodes.size - 1) = List.range nodes.size
  typed : ∃ arrows, inferArrows (normalized nodes) = .ok arrows

variable {nodes : Array Node}

@[simp]
theorem size_normalized : (normalized nodes).size = nodes.size :=
  Array.size_map

theorem hiddenAt_normalized (index : Nat) :
    hiddenAt (normalized nodes) index = hiddenAt nodes index := by
  simp only [hiddenAt, normalized, Array.getElem?_map]
  cases nodes[index]? <;> simp

theorem childrenFirst_normalized_iff : ChildrenFirst (normalized nodes) ↔ ChildrenFirst nodes := by
  simp [ChildrenFirst, normalized]

theorem canonicalOrder_normalized (root : Nat) :
    canonicalOrder (normalized nodes) root = canonicalOrder nodes root := by
  suffices ∀ index left, orderFrom (normalized nodes) index left = orderFrom nodes index left from
    this root []
  intro index
  induction index using Nat.strongRecOn with
  | ind index ih =>
      intro left
      have sameChildren : ((normalized nodes).getD index .unit).children =
          (nodes.getD index .unit).children := by
        simp only [normalized, Array.getD_eq_getD_getElem?, Array.getElem?_map]
        cases nodes[index]? <;> simp
      rw [orderFrom, orderFrom, sameChildren]
      congr 2
      apply List.foldl_ext
      intro left child _
      split
      case isTrue earlier => exact ih child earlier left
      case isFalse => rfl

/-- Nodes are listed in their normal form, if that hides pruned branches only. -/
theorem Dag.ofNodes_eq_ok_iff_normalized {dag : Dag} :
    Dag.ofNodes nodes = .ok dag ↔
      dag.nodes = normalized nodes ∧ ∀ node ∈ normalized nodes, node.HidesPruned (hiddenAt nodes) := by
  have settles_iff : ∀ {hidden : Nat → Bool} {list : Array Node},
      List.Forall₂ (fun node settled => node.settle? hidden = some settled) nodes.toList list.toList ↔
        list = nodes.map (·.normalize hidden) ∧ ∀ node ∈ list, node.HidesPruned hidden := by
    intro hidden list
    simp only [Combinator.settle?_eq_some_iff]
    rw [← Array.toList_inj, Array.toList_map, eq_comm, ← List.forall₂_eq_eq_eq,
      List.forall₂_map_left_iff]
    constructor
    · intro settles
      refine ⟨settles.imp fun _ _ settled => settled.1.symm, ?_⟩
      intro node member
      rcases List.mem_iff_getElem.mp (Array.mem_toList_iff.mpr member) with ⟨index, inside, rfl⟩
      have inside' : index < nodes.toList.length := settles.length_eq ▸ inside
      exact (settles.get inside' inside).2
    · rintro ⟨same, hides⟩
      rw [List.forall₂_iff_zip] at same ⊢
      refine ⟨same.1, ?_⟩
      intro node settled member
      exact ⟨(same.2 member).symm, hides settled (Array.mem_toList_iff.mp (List.of_mem_zip member).2)⟩
  rw [Dag.ofNodes_eq_ok_iff, settles_iff]
  constructor
  · rintro ⟨listed, hides⟩
    -- Normal forms are hidden where the nodes are, whatever the choices are settled by.
    have sameHidden : hiddenAt dag.nodes = hiddenAt nodes := by
      funext index
      rw [hiddenAt, listed, Array.getElem?_map, hiddenAt]
      cases nodes[index]? <;> simp
    rw [sameHidden] at listed hides
    rw [listed] at hides
    exact ⟨listed, hides⟩
  · rintro ⟨listed, hides⟩
    have sameHidden : hiddenAt dag.nodes = hiddenAt nodes := by
      rw [listed]
      exact funext hiddenAt_normalized
    rw [sameHidden, listed]
    exact ⟨rfl, hides⟩

/-- The list in normal form of nodes that have their children first and hide pruned branches only. -/
def Acceptable.dag (acceptable : Acceptable nodes) : Dag where
  nodes := normalized nodes
  backward := by
    intro index inside child member
    exact childrenFirst_normalized_iff.mpr acceptable.childrenFirst index _
      (Array.getElem?_eq_getElem inside) child member
  settled := by
    intro index inside
    rw [Combinator.settled_iff_hidesPruned, funext hiddenAt_normalized]
    exact acceptable.hidesPruned _ (Array.getElem_mem inside)

namespace Expression

/-- The nodes of an expression are left in canonical order. -/
theorem canonicalOrder_nodes (expression : Expression) :
    canonicalOrder expression.nodes expression.root = List.range expression.size := by
  exact (checkOrder_eq_ok_iff expression.dag.childrenFirst expression.nonempty).mp
    expression.ordered

theorem exists_postOrder (expression : Expression) : ∃ placement,
    PostOrder expression.nodes [expression.root] (.start expression.nodes.size) placement ∧
      placement.order = Array.range expression.size := by
  have backward := expression.dag.childrenFirst.backwardFrom expression.last.isLt
  rcases Builder.exists_linearize backward with ⟨placement, walks, -⟩
  refine ⟨placement, walks, Array.toList_inj.mp ?_⟩
  rw [walks.canonicalOrder_eq, Array.toList_range]
  exact expression.canonicalOrder_nodes

theorem acceptable_of_ofNodes {expression : Expression} (made : ofNodes nodes = .ok expression) :
    expression.nodes = normalized nodes ∧ Acceptable nodes := by
  rcases Dag.ofNodes_eq_ok_iff_normalized.mp ((ofNodes_eq_ok_iff _ _).mp made) with ⟨listed, hides⟩
  have sized : expression.dag.nodes.size = nodes.size := by rw [listed, size_normalized]
  refine ⟨listed, ?_, ?_, hides, ?_, ?_, ?_⟩
  · exact sized ▸ expression.nonempty
  · rw [← childrenFirst_normalized_iff, ← listed]
    exact expression.dag.childrenFirst
  · rw [← hiddenAt_normalized, ← listed, ← sized]
    exact expression.visible
  · have ordered := expression.canonicalOrder_nodes
    rw [root, size, Dag.size, sized, Expression.nodes, listed, canonicalOrder_normalized] at ordered
    exact ordered
  · exact ⟨expression.arrows, listed ▸ expression.typed⟩

theorem exists_ofNodes_of_acceptable (acceptable : Acceptable nodes) :
    ∃ expression, ofNodes nodes = .ok expression := by
  rcases acceptable.typed with ⟨arrows, typed⟩
  have sized : acceptable.dag.size = nodes.size := size_normalized
  have nonempty : 0 < acceptable.dag.size := sized ▸ acceptable.nonempty
  have ordered : checkOrder acceptable.dag.nodes = .ok () := by
    rw [checkOrder_eq_ok_iff acceptable.dag.childrenFirst nonempty]
    change canonicalOrder (normalized nodes) (acceptable.dag.size - 1) =
      List.range acceptable.dag.size
    rw [canonicalOrder_normalized, sized]
    exact acceptable.ordered
  refine ⟨⟨acceptable.dag, arrows, nonempty, ?_, ordered, typed⟩, ?_⟩
  · rw [sized]
    exact (hiddenAt_normalized _).trans acceptable.rootVisible
  · rw [ofNodes_eq_ok_iff, Dag.ofNodes_eq_ok_iff_normalized]
    exact ⟨rfl, acceptable.hidesPruned⟩

theorem ofNodes_nodes (expression : Expression) : ofNodes expression.nodes = .ok expression := by
  have listed := expression.dag.ofNodes_map fun node => .inl (id_eq node)
  rw [Array.map_id_fun, id_eq] at listed
  exact (ofNodes_eq_ok_iff _ _).mpr listed

theorem pairwise_witnessNodes (expression : Expression) :
    expression.witnessNodes.Pairwise (· < ·) :=
  List.pairwise_lt_range.filter _

/-- Nodes make an expression exactly if they are acceptable. Its nodes are theirs in normal form, its
witness nodes are listed in order, and its nodes make it again. -/
theorem exists_ofNodes_iff_acceptable (nodes : Array Node) :
    ((∃ expression, ofNodes nodes = .ok expression) ↔ Acceptable nodes) ∧
      ∀ expression, ofNodes nodes = .ok expression →
        expression.nodes = normalized nodes ∧
          inferArrows (normalized nodes) = .ok expression.arrows ∧
          (∀ index, index ∈ expression.witnessNodes ↔ (normalized nodes)[index]? = some .witness) ∧
          expression.witnessNodes.Pairwise (· < ·) ∧
          ofNodes expression.nodes = .ok expression := by
  constructor
  · constructor
    · rintro ⟨expression, made⟩
      exact (acceptable_of_ofNodes made).2
    · exact exists_ofNodes_of_acceptable
  · intro expression made
    have listed := (acceptable_of_ofNodes made).1
    rw [← listed]
    exact ⟨rfl, expression.typed, expression.mem_witnessNodes_iff,
      expression.pairwise_witnessNodes, expression.ofNodes_nodes⟩

/-- A choice with a hidden branch is accepted, and its assertion makes the same expression. -/
theorem acceptable_hiddenBranch : ∃ expression,
    ofNodes #[.witness, .unit, .hidden .zero, .case 1 2, .comp 0 3] = .ok expression ∧
      Acceptable #[.witness, .unit, .hidden .zero, .case 1 2, .comp 0 3] ∧
      expression.nodes = #[.witness, .unit, .hidden .zero, .assertl 1 2, .comp 0 3] ∧
      ofNodes #[.witness, .unit, .hidden .zero, .assertl 1 2, .comp 0 3] = .ok expression := by
  have made : ∃ expression,
      ofNodes #[.witness, .unit, .hidden .zero, .case 1 2, .comp 0 3] = .ok expression :=
    ⟨_, rfl⟩
  have acceptable := (exists_ofNodes_iff_acceptable _).1.mp made
  rcases made with ⟨expression, made⟩
  rcases (exists_ofNodes_iff_acceptable _).2 expression made with ⟨listed, -, -, -, again⟩
  have normal : normalized #[.witness, .unit, .hidden .zero, .case 1 2, .comp 0 3] =
      #[.witness, .unit, .hidden .zero, .assertl 1 2, .comp 0 3] := by
    simp [normalized, Combinator.normalize, hiddenAt, Combinator.isHidden]
  rw [normal] at listed
  exact ⟨expression, made, acceptable, listed, listed ▸ again⟩

end Expression

end Simplicity
