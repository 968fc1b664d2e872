import Simplicity.Bounds
import Simplicity.Proofs.Expression.Arrows

/-!
# Resource bounds

Every node of an expression has bounds, since the nodes that bounds are asked of have types. A rule
for bounds only adds numbers and takes maxima, and what it adds are widths of types. So the bounds of
a node can only get lower if those of its children do and if types are pruned.
-/

namespace Simplicity

namespace Cost

@[simp]
theorem milli_plus (cost : Cost) (milli : Nat) :
    (cost.plus milli).milli = min (cost.milli + milli) maxMilli :=
  rfl

@[simp]
theorem milli_add (left right : Cost) :
    (left + right).milli = min (left.milli + right.milli) maxMilli :=
  rfl

@[simp]
theorem milli_higher (left right : Cost) :
    (left.higher right).milli = max left.milli right.milli :=
  rfl

end Cost

namespace Bounds

instance : Inhabited Bounds :=
  ⟨zero⟩

/-- None of the numbers is higher. -/
structure Le (bounds other : Bounds) : Prop where
  cost : bounds.cost.milli ≤ other.cost.milli
  cells : bounds.cells ≤ other.cells
  frames : bounds.frames ≤ other.frames

variable {left right left' right' : Bounds}

theorem Le.refl (bounds : Bounds) : bounds.Le bounds :=
  ⟨Nat.le_refl _, Nat.le_refl _, Nat.le_refl _⟩

theorem zero_le (bounds : Bounds) : zero.Le bounds :=
  ⟨Nat.zero_le _, Nat.zero_le _, Nat.zero_le _⟩

theorem maxCells_le (leLeft : left'.Le left) (leRight : right'.Le right) :
    left'.maxCells right' ≤ left.maxCells right := by
  have := leLeft.cells
  have := leRight.cells
  simp only [maxCells]
  omega

theorem maxFrames_le (leLeft : left'.Le left) (leRight : right'.Le right) :
    left'.maxFrames right' ≤ left.maxFrames right := by
  have := leLeft.frames
  have := leRight.frames
  simp only [maxFrames]
  omega

theorem clamp_le {number number' : Nat} (le : number' ≤ number) : clamp number' ≤ clamp number := by
  simp only [clamp]
  omega

end Bounds

namespace Expression

variable {expression expression' : Expression}

theorem arrow_eq_ok_iff {index : Nat} {arrow : Arrow} :
    expression.arrow index = .ok arrow ↔ expression.arrow? index = some arrow := by
  rw [Expression.arrow]
  cases expression.arrow? index <;> simp

theorem exists_arrow {index : Nat} (inside : index < expression.dag.nodes.size)
    (visible : hiddenAt expression.dag.nodes index = false) :
    ∃ arrow, expression.arrow index = .ok arrow := by
  have isNode := Array.getElem?_eq_getElem inside
  rw [Typing.hiddenAt_eq isNode] at visible
  rcases exists_arrow? isNode visible with ⟨arrow, typed⟩
  exact ⟨arrow, arrow_eq_ok_iff.mpr typed⟩

theorem exists_boundsOf (expression : Expression) (index : Fin expression.dag.nodes.size)
    (results : Nat → Bounds) :
    ∃ bounds, expression.boundsOf index
      ((expression.dag.nodes[index]).map fun child => (child, results child)) = .ok bounds := by
  have hiddenAt_eq := Typing.hiddenAt_eq (Array.getElem?_eq_getElem index.isLt)
  have backward := expression.dag.backward index index.isLt
  have settled := expression.dag.settled index index.isLt
  simp only [Fin.getElem_fin]
  -- Bounds are asked for the type of the node, or for that of a left child, which is not hidden.
  cases isNode : expression.dag.nodes[index.val] with
  | iden | witness =>
      rw [isNode] at hiddenAt_eq
      rcases exists_arrow index.isLt hiddenAt_eq with ⟨arrow, typed⟩
      simp [Combinator.map, Combinator.mapMem, boundsOf, typed, bind, Except.bind, pure, Except.pure]
  | comp left right | disconnect left right =>
      rw [isNode] at backward settled
      have visible := Combinator.hidden_eq_false_of_settled settled rfl (.head _)
      rcases exists_arrow (Nat.lt_trans (backward left (.head _)) index.isLt) visible with
        ⟨arrow, typed⟩
      simp [Combinator.map, Combinator.mapMem, boundsOf, typed, bind, Except.bind, pure, Except.pure]
  | _ => exact ⟨_, rfl⟩

/-- Every node has bounds. -/
theorem exists_nodeBounds (expression : Expression) :
    ∃ bounds, expression.nodeBounds = .ok bounds :=
  Dag.exists_scan_eq_ok expression.exists_boundsOf

theorem boundsOf_eq_ok {results : Vector Bounds expression.dag.nodes.size} {index : Nat}
    {node : Node} (ran : expression.nodeBounds = .ok results)
    (isNode : expression.node? index = some node) :
    expression.boundsOf index (node.map fun child => (child, Dag.resultAt results child)) =
      .ok (Dag.resultAt results index) := by
  rcases Array.getElem?_eq_some_iff.mp isNode with ⟨inside, rfl⟩
  exact Dag.scan_eq_ok ran inside

theorem bounds_eq_ok {results : Vector Bounds expression.dag.nodes.size}
    (ran : expression.nodeBounds = .ok results) :
    expression.bounds = .ok (Dag.resultAt results expression.root) := by
  rw [bounds, ran]
  exact congrArg Except.ok (Dag.resultAt_eq results expression.last.isLt).symm

section Monotone

variable {origin : Nat → Nat}

/-- A node costs less if its type and those of its children are below and if its children cost less. -/
theorem boundsOf_cost_le {index : Nat} {node : Node}
    (below : ∀ {other arrow arrow'}, other = index ∨ other ∈ node.children →
      expression'.arrow other = .ok arrow' → expression.arrow (origin other) = .ok arrow →
        arrow'.Below arrow)
    {results results' : Nat → Bounds} {bounds bounds' : Bounds}
    (children : ∀ child ∈ node.children,
      (results' child).cost.milli ≤ (results (origin child)).cost.milli)
    (ran : expression.boundsOf (origin index)
      ((node.map origin).map fun child => (child, results child)) = .ok bounds)
    (ran' : expression'.boundsOf index (node.map fun child => (child, results' child)) =
      .ok bounds') : bounds'.cost.milli ≤ bounds.cost.milli := by
  cases node with
  | hidden root =>
      cases ran
      cases ran'
      exact Nat.le_refl _
  | iden =>
      rcases exists_ok_of_bind ran with ⟨arrow, found, ⟨⟩⟩
      rcases exists_ok_of_bind ran' with ⟨arrow', found', ⟨⟩⟩
      have copied := (below (.inl rfl) found' found).source.width_le
      simp only [Cost.milli_plus]
      omega
  | unit =>
      cases ran
      cases ran'
      exact Nat.le_refl _
  | witness =>
      rcases exists_ok_of_bind ran with ⟨arrow, found, ⟨⟩⟩
      rcases exists_ok_of_bind ran' with ⟨arrow', found', ⟨⟩⟩
      have copied := (below (.inl rfl) found' found).target.width_le
      simp only [Cost.milli_plus]
      omega
  | injl child | injr child | take child | drop child =>
      have le := children child (.head _)
      cases ran
      cases ran'
      simp only [Cost.milli_add]
      omega
  | comp left right =>
      have leLeft := children left (.head _)
      have leRight := children right (.tail _ (.head _))
      rcases exists_ok_of_bind ran with ⟨arrow, found, ⟨⟩⟩
      rcases exists_ok_of_bind ran' with ⟨arrow', found', ⟨⟩⟩
      have copied := (below (.inr (.head _)) found' found).target.width_le
      simp only [Cost.milli_add, Cost.milli_plus]
      omega
  | pair left right =>
      have leLeft := children left (.head _)
      have leRight := children right (.tail _ (.head _))
      cases ran
      cases ran'
      simp only [Cost.milli_add]
      omega
  | case left right | assertl left right | assertr left right =>
      have leLeft := children left (.head _)
      have leRight := children right (.tail _ (.head _))
      cases ran
      cases ran'
      simp only [Cost.milli_add, Cost.milli_higher]
      omega
  | disconnect left right =>
      have leLeft := children left (.head _)
      have leRight := children right (.tail _ (.head _))
      rcases exists_ok_of_bind ran with ⟨arrow, found, ⟨⟩⟩
      rcases exists_ok_of_bind ran' with ⟨arrow', found', ⟨⟩⟩
      have lower := below (.inr (.head _)) found' found
      have copied := Bounds.clamp_le (Nat.add_le_add lower.source.width_le lower.target.width_le)
      simp only [Cost.milli_add, Cost.milli_plus]
      omega

/-- A node whose type and children come to less takes less. -/
theorem boundsOf_le
    (below : ∀ {index arrow'}, expression'.arrow? index = some arrow' →
      ∃ arrow, expression.arrow? (origin index) = some arrow ∧ arrow'.Below arrow)
    {index : Nat} {node : Node} {results results' : Nat → Bounds} {bounds bounds' : Bounds}
    (children : ∀ child ∈ node.children, (results' child).Le (results (origin child)))
    (ran : expression.boundsOf (origin index)
      ((node.map origin).map fun child => (child, results child)) = .ok bounds)
    (ran' : expression'.boundsOf index (node.map fun child => (child, results' child)) =
      .ok bounds') : bounds'.Le bounds := by
  have narrower : ∀ {index arrow arrow'}, expression'.arrow index = .ok arrow' →
      expression.arrow (origin index) = .ok arrow → arrow'.Below arrow := by
    intro index arrow arrow' found' found
    rw [arrow_eq_ok_iff] at found found'
    rcases below found' with ⟨_, again, lower⟩
    rw [found] at again
    cases again
    exact lower
  have cost := boundsOf_cost_le (fun _ => narrower)
    (fun child member => (children child member).cost) ran ran'
  cases node with
  | hidden root =>
      cases ran
      cases ran'
      exact .refl _
  | unit =>
      cases ran
      cases ran'
      exact .refl _
  | iden | witness =>
      rcases exists_ok_of_bind ran with ⟨arrow, found, ⟨⟩⟩
      rcases exists_ok_of_bind ran' with ⟨arrow', found', ⟨⟩⟩
      exact ⟨cost, Nat.le_refl _, Nat.le_refl _⟩
  | injl child | injr child | take child | drop child =>
      have le := children child (.head _)
      cases ran
      cases ran'
      exact ⟨cost, le.cells, le.frames⟩
  | comp left right =>
      have leLeft := children left (.head _)
      have leRight := children right (.tail _ (.head _))
      rcases exists_ok_of_bind ran with ⟨arrow, found, ⟨⟩⟩
      rcases exists_ok_of_bind ran' with ⟨arrow', found', ⟨⟩⟩
      have copied := (narrower found' found).target.width_le
      refine ⟨cost, ?_, ?_⟩
      · exact Bounds.clamp_le (Nat.add_le_add copied (Bounds.maxCells_le leLeft leRight))
      · exact Bounds.clamp_le (Nat.add_le_add_right (Bounds.maxFrames_le leLeft leRight) 1)
  | pair left right | case left right | assertl left right | assertr left right =>
      have leLeft := children left (.head _)
      have leRight := children right (.tail _ (.head _))
      cases ran
      cases ran'
      exact ⟨cost, Bounds.maxCells_le leLeft leRight, Bounds.maxFrames_le leLeft leRight⟩
  | disconnect left right =>
      have leLeft := children left (.head _)
      have leRight := children right (.tail _ (.head _))
      rcases exists_ok_of_bind ran with ⟨arrow, found, ⟨⟩⟩
      rcases exists_ok_of_bind ran' with ⟨arrow', found', ⟨⟩⟩
      have lower := narrower found' found
      have copied := Bounds.clamp_le (Nat.add_le_add lower.source.width_le lower.target.width_le)
      refine ⟨cost, ?_, ?_⟩
      · exact Bounds.clamp_le (Nat.add_le_add copied (Bounds.maxCells_le leLeft leRight))
      · exact Bounds.clamp_le (Nat.add_le_add_right (Bounds.maxFrames_le leLeft leRight) 2)

end Monotone

end Expression

end Simplicity
