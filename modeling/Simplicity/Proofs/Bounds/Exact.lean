import Simplicity.Proofs.Limits
import Simplicity.Proofs.Root.Invariance

/-!
# Exact bounds

Bounds are computed with numbers that stay at their highest value once they reach it, and since nodes
are shared, they do reach it in short lists. Here the same rules are stated without such a ceiling, by
recursion over the typed tree that a node unfolds to. Clamping at every step comes to the same as
clamping the exact number once: sums and maxima of numbers that are not negative cannot come down again
from where they have been cut off.

So a budget below the highest cost decides by the exact cost, although only the clamped one is known.
-/

namespace Simplicity

namespace Ty

/-- The number of bits of the largest values of a type, however many there are. -/
def exactWidth : Ty → Nat
  | .unit => 0
  | .sum left right => 1 + max left.exactWidth right.exactWidth
  | .prod left right => left.exactWidth + right.exactWidth

/-- The width that a type carries is the exact one, as far as it can be told apart. -/
theorem width_eq_clamp (ty : Ty) : ty.width = Bounds.clamp ty.exactWidth := by
  induction ty with
  | unit => rfl
  | sum left right ihLeft ihRight =>
      change min (1 + max left.width right.width) maxWidth = _
      simp only [ihLeft, ihRight, exactWidth, Bounds.clamp]
      omega
  | prod left right ihLeft ihRight =>
      change min (left.width + right.width) maxWidth = _
      simp only [ihLeft, ihRight, exactWidth, Bounds.clamp]
      omega

end Ty

section Clamping

-- Clamping commutes with the operations of the rules, whatever part of an operand is clamped before.

theorem Cost.overhead_eq : (⟨overhead⟩ : Cost) = ofMilli overhead :=
  rfl

theorem Cost.ofMilli_add (left right : Nat) :
    ofMilli left + ofMilli right = ofMilli (left + right) := by
  change Cost.mk (min (min left maxMilli + min right maxMilli) maxMilli) = ⟨min (left + right) maxMilli⟩
  congr 1
  omega

theorem Cost.ofMilli_plus (milli bits : Nat) :
    (ofMilli milli).plus (Bounds.clamp bits) = ofMilli (milli + bits) := by
  have lower : maxMilli ≤ maxWidth := by decide
  change Cost.mk (min (min milli maxMilli + min bits maxWidth) maxMilli) = ⟨min (milli + bits) maxMilli⟩
  congr 1
  omega

theorem Cost.ofMilli_higher (left right : Nat) :
    (ofMilli left).higher (ofMilli right) = ofMilli (max left right) := by
  change Cost.mk (max (min left maxMilli) (min right maxMilli)) = ⟨min (max left right) maxMilli⟩
  congr 1
  omega

theorem Bounds.clamp_add_clamp (left right : Nat) : clamp (left + clamp right) = clamp (left + right) := by
  simp only [clamp]
  omega

theorem Bounds.clamp_clamp_add (left right : Nat) : clamp (clamp left + right) = clamp (left + right) := by
  simp only [clamp]
  omega

theorem Bounds.max_clamp (left right : Nat) : max (clamp left) (clamp right) = clamp (max left right) := by
  simp only [clamp]
  omega

end Clamping

/-- The exact width of the source of a position; where nothing is typed there are no bits. -/
def sourceBits : Option Arrow → Nat
  | some arrow => arrow.source.exactWidth
  | none => 0

/-- The exact width of the target of a position. -/
def targetBits : Option Arrow → Nat
  | some arrow => arrow.target.exactWidth
  | none => 0

/-- What a position and all that is below it take, in numbers without a ceiling. -/
structure Resources where
  /-- The cost in milli weight units. -/
  cost : Nat
  /-- The cells beyond those of the input and output. -/
  cells : Nat
  /-- The frames beyond those of the input and output. -/
  frames : Nat

namespace Resources

/-- What a combinator takes, from the arrows and the resources of its children. Each combinator pays the
overhead and the bits that it copies; of the branches of a choice only the costlier one counts, and the
cells and frames of one child are free again for the other. -/
def ofNode (arrow : Option Arrow) : Combinator (Option Arrow × Resources) → Resources
  | .hidden _ => ⟨0, 0, 0⟩
  | .iden => ⟨Cost.overhead + sourceBits arrow, 0, 0⟩
  | .unit => ⟨Cost.overhead, 0, 0⟩
  | .witness => ⟨Cost.overhead + targetBits arrow, 0, 0⟩
  | .injl (_, child) | .injr (_, child) | .take (_, child) | .drop (_, child) =>
      ⟨Cost.overhead + child.cost, child.cells, child.frames⟩
  | .comp (leftArrow, left) (_, right) =>
      { cost := Cost.overhead + targetBits leftArrow + left.cost + right.cost
        cells := targetBits leftArrow + max left.cells right.cells
        frames := max left.frames right.frames + 1 }
  | .pair (_, left) (_, right) =>
      { cost := Cost.overhead + left.cost + right.cost
        cells := max left.cells right.cells
        frames := max left.frames right.frames }
  | .case (_, left) (_, right) | .assertl (_, left) (_, right) | .assertr (_, left) (_, right) =>
      { cost := Cost.overhead + max left.cost right.cost
        cells := max left.cells right.cells
        frames := max left.frames right.frames }
  | .disconnect (leftArrow, left) (_, right) =>
      { cost := Cost.overhead + (sourceBits leftArrow + targetBits leftArrow) + left.cost + right.cost
        cells := sourceBits leftArrow + targetBits leftArrow + max left.cells right.cells
        frames := max left.frames right.frames + 2 }

/-- Bounds are resources as far as they can be told apart. -/
def clamp (resources : Resources) : Bounds where
  cost := .ofMilli resources.cost
  cells := Bounds.clamp resources.cells
  frames := Bounds.clamp resources.frames

end Resources

namespace Unfolding

/-- The arrow of the topmost position. -/
def arrow : Unfolding → Option Arrow
  | .node arrow _ _ => arrow

/-- What a tree takes. -/
def resources : Unfolding → Resources
  | .node arrow _ combinator =>
      .ofNode arrow (combinator.mapMem fun child _ => (child.arrow, child.resources))
termination_by tree => sizeOf tree
decreasing_by exact sizeOf_lt_of_mem (by assumption)

theorem resources_node (arrow : Option Arrow) (value : Option BitString)
    (combinator : Combinator Unfolding) :
    (node arrow value combinator).resources =
      .ofNode arrow (combinator.map fun child => (child.arrow, child.resources)) := by
  rw [resources]
  rfl

end Unfolding

namespace Expression

variable {expression : Expression} {witness : Witness} {index : Nat}

/-- Clamping the exact resources of the children does not change what is clamped of a node. -/
theorem boundsOf_eq_clamp {node : Node} {results : Nat → Bounds} {exact : Nat → Resources}
    {bounds : Bounds} (children : ∀ child ∈ node.children, results child = (exact child).clamp)
    (ran : expression.boundsOf index (node.map fun child => (child, results child)) = .ok bounds) :
    bounds = (Resources.ofNode (expression.arrow? index)
      (node.map fun child => (expression.arrow? child, exact child))).clamp := by
  cases node with
  | hidden root =>
      cases ran
      rfl
  | unit =>
      cases ran
      rfl
  | iden =>
      rcases exists_ok_of_bind ran with ⟨arrow, found, ⟨⟩⟩
      simp only [Combinator.map, Combinator.mapMem, Resources.ofNode, arrow_eq_ok_iff.mp found,
        sourceBits, Resources.clamp, Cost.overhead_eq, Ty.width_eq_clamp, Cost.ofMilli_plus]
      rfl
  | witness =>
      rcases exists_ok_of_bind ran with ⟨arrow, found, ⟨⟩⟩
      simp only [Combinator.map, Combinator.mapMem, Resources.ofNode, arrow_eq_ok_iff.mp found,
        targetBits, Resources.clamp, Cost.overhead_eq, Ty.width_eq_clamp, Cost.ofMilli_plus]
      rfl
  | injl child | injr child | take child | drop child =>
      cases ran
      simp only [Combinator.map, Combinator.mapMem, Resources.ofNode, children child (.head _),
        Resources.clamp, Cost.overhead_eq, Cost.ofMilli_add]
  | comp left right =>
      rcases exists_ok_of_bind ran with ⟨arrow, found, ⟨⟩⟩
      simp only [Combinator.map, Combinator.mapMem, Resources.ofNode, arrow_eq_ok_iff.mp found,
        children left (.head _), children right (.tail _ (.head _)), targetBits, Resources.clamp,
        Cost.overhead_eq, Ty.width_eq_clamp, Cost.ofMilli_plus, Cost.ofMilli_add, Bounds.maxCells,
        Bounds.maxFrames, Bounds.max_clamp, Bounds.clamp_add_clamp, Bounds.clamp_clamp_add]
  | pair left right =>
      cases ran
      simp only [Combinator.map, Combinator.mapMem, Resources.ofNode, children left (.head _),
        children right (.tail _ (.head _)), Resources.clamp, Cost.overhead_eq, Cost.ofMilli_add,
        Bounds.maxCells, Bounds.maxFrames, Bounds.max_clamp]
  | case left right | assertl left right | assertr left right =>
      cases ran
      simp only [Combinator.map, Combinator.mapMem, Resources.ofNode, children left (.head _),
        children right (.tail _ (.head _)), Resources.clamp, Cost.overhead_eq, Cost.ofMilli_add,
        Cost.ofMilli_higher, Bounds.maxCells, Bounds.maxFrames, Bounds.max_clamp]
  | disconnect left right =>
      rcases exists_ok_of_bind ran with ⟨arrow, found, ⟨⟩⟩
      simp only [Combinator.map, Combinator.mapMem, Resources.ofNode, arrow_eq_ok_iff.mp found,
        children left (.head _), children right (.tail _ (.head _)), sourceBits, targetBits,
        Resources.clamp, Cost.overhead_eq, Ty.width_eq_clamp, Cost.ofMilli_plus, Cost.ofMilli_add,
        Bounds.maxCells, Bounds.maxFrames, Bounds.max_clamp, Bounds.clamp_add_clamp,
        Bounds.clamp_clamp_add]

theorem arrow_unfoldingAt (inside : index < expression.dag.nodes.size) :
    (expression.unfoldingAt witness index).arrow = expression.arrow? index := by
  rw [unfoldingAt_eq inside, Unfolding.arrow, visibleArrow?_eq_arrow? inside]

/-- The bounds of every node are the resources of its tree, as far as they can be told apart. -/
theorem resultAt_eq_clamp {results : Vector Bounds expression.dag.nodes.size}
    (ran : expression.nodeBounds = .ok results) (witness : Witness)
    (inside : index < expression.dag.nodes.size) :
    Dag.resultAt results index = (expression.unfoldingAt witness index).resources.clamp := by
  induction index using Nat.strongRecOn with
  | ind index ih =>
      have stepped := boundsOf_eq_ok ran (Array.getElem?_eq_getElem inside)
      have insideChild : ∀ child ∈ (expression.dag.nodes[index]).children,
          child < expression.dag.nodes.size := by
        intro child member
        exact Nat.lt_trans (expression.dag.backward index inside child member) inside
      have children : ∀ child ∈ (expression.dag.nodes[index]).children,
          Dag.resultAt results child = (expression.unfoldingAt witness child).resources.clamp := by
        intro child member
        exact ih child (expression.dag.backward index inside child member) (insideChild child member)
      rw [boundsOf_eq_clamp children stepped, unfoldingAt_eq inside, Unfolding.resources_node,
        Combinator.map_map, visibleArrow?_eq_arrow? inside]
      congr 2
      apply Combinator.map_congr
      intro child member
      rw [Function.comp_apply, arrow_unfoldingAt (insideChild child member)]

end Expression

theorem Limits.check_withBudget (limits : Limits) {budget : Nat} (positive : 0 < budget) :
    (limits.withBudget budget).check = Limits.check { limits with costBudget := none } := by
  simp [Limits.check, Limits.validate, Limits.withBudget, Nat.ne_of_gt positive]

namespace Program

variable {expression : Expression} {witness : Witness} {limits : Limits} {program : Program}
  {budget : Nat}

/-- A program that is accepted without a budget is accepted within one, unless it costs more. -/
theorem analyse_withBudget (positive : 0 < budget)
    (accepted : analyse expression witness { limits with costBudget := none } = .ok program) :
    analyse expression witness (limits.withBudget budget) =
      if budget < program.bounds.cost.milli then
        .error (.costExceeded program.bounds.cost.milli budget)
      else
        .ok program := by
  rcases analyse_eq_ok_iff.mp accepted with
    ⟨valid, roots, rooted, shared, bounds, bounded, -, annotated, annotates, rfl⟩
  rw [← limits.check_withBudget positive] at valid
  have budgeted : checkBudget (limits.withBudget budget) bounds.cost =
      if budget < bounds.cost.milli then .error (.costExceeded bounds.cost.milli budget)
      else .ok () :=
    rfl
  simp only [analyse, valid, rooted, shared, bounded, annotates, budgeted, bind, Except.bind]
  by_cases above : budget < bounds.cost.milli
  · simp only [above, if_true]
  · simp only [above, if_false]
    rfl

/-- What is accepted within a budget is accepted without one. -/
theorem analyse_of_withBudget (positive : 0 < budget)
    (accepted : analyse expression witness (limits.withBudget budget) = .ok program) :
    analyse expression witness { limits with costBudget := none } = .ok program := by
  rcases analyse_eq_ok_iff.mp accepted with
    ⟨valid, roots, rooted, shared, bounds, bounded, -, annotated, annotates, rfl⟩
  rw [limits.check_withBudget positive] at valid
  exact analyse_eq_ok_iff.mpr
    ⟨valid, roots, rooted, shared, bounds, bounded, rfl, annotated, annotates, rfl⟩

/-- The cost of a program is the exact cost of its tree, as far as it can be told apart. -/
theorem milli_cost_eq_min (accepted : analyse expression witness limits = .ok program) :
    program.bounds.cost.milli =
      min (expression.unfoldingAt witness expression.root).resources.cost (2 ^ 32 - 1) := by
  rcases expression.exists_nodeBounds with ⟨results, ran⟩
  have bounded := (compute_of_analyse accepted).2
  rw [Expression.bounds_eq_ok ran, Except.ok.injEq] at bounded
  have inside : expression.root < expression.dag.nodes.size := expression.last.isLt
  rw [← bounded, Expression.resultAt_eq_clamp ran witness inside]
  rfl

end Program

/-- Bounds are exact as far as their numbers can be told apart, at every node. Therefore a budget below
the highest cost accepts a program that is accepted without it exactly if the exact cost is within the
budget, and refuses every program whose cost has reached the highest one. -/
theorem Expression.nodeBounds_eq_min_exact (expression : Expression) (witness : Witness) :
    (∃ results, expression.nodeBounds = .ok results ∧
      ∀ index (inside : index < expression.dag.nodes.size),
        let exact := (expression.unfoldingAt witness index).resources
        results[index] = ⟨⟨min exact.cost (2 ^ 32 - 1)⟩, min exact.cells (2 ^ 64 - 1),
          min exact.frames (2 ^ 64 - 1)⟩) ∧
    ∀ (limits : Limits) (budget : Nat), 0 < budget → budget < 2 ^ 32 - 1 →
      let exactCost := (expression.unfoldingAt witness expression.root).resources.cost
      (∀ program, Program.analyse expression witness (limits.withBudget budget) = .ok program ↔
        Program.analyse expression witness { limits with costBudget := none } = .ok program ∧
          exactCost ≤ budget) ∧
      ∀ program, Program.analyse expression witness { limits with costBudget := none } = .ok program →
        (budget < exactCost → Program.analyse expression witness (limits.withBudget budget) =
          .error (.costExceeded (min exactCost (2 ^ 32 - 1)) budget)) ∧
        (program.bounds.cost.milli = 2 ^ 32 - 1 →
          Program.analyse expression witness (limits.withBudget budget) ≠ .ok program) := by
  constructor
  · rcases expression.exists_nodeBounds with ⟨results, ran⟩
    refine ⟨results, ran, ?_⟩
    intro index inside exact
    have clamped := resultAt_eq_clamp ran witness inside
    rw [Dag.resultAt_eq results inside] at clamped
    exact clamped
  · intro limits budget positive low exactCost
    refine ⟨?_, ?_⟩
    · intro program
      constructor
      · intro accepted
        have unlimited := Program.analyse_of_withBudget positive accepted
        refine ⟨unlimited, ?_⟩
        by_contra above
        rw [Program.analyse_withBudget positive unlimited, Program.milli_cost_eq_min unlimited,
          if_pos (by omega)] at accepted
        cases accepted
      · rintro ⟨unlimited, within⟩
        rw [Program.analyse_withBudget positive unlimited, Program.milli_cost_eq_min unlimited,
          if_neg (by omega)]
    · intro program unlimited
      have budgeted := Program.analyse_withBudget positive unlimited
      constructor
      · intro above
        rw [budgeted, Program.milli_cost_eq_min unlimited, if_pos (by omega)]
      · intro saturated
        rw [budgeted, if_pos (by omega)]
        simp

end Simplicity
