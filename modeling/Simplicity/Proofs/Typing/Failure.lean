import Simplicity.Proofs.Typing.Inference
import Simplicity.Proofs.Typing.Naming

/-!
# Why inference fails, and where

Inference reports one of two failures, and blames a node for it. Both can be said of the constraints
between type terms alone:

* constructors are mismatched at the first node up to which the constraints clash;
* a type contains itself if no constraints clash, and then the first node is blamed that is not hidden
  and from which the components of terms lead to a cycle.

While variables are joined, classes may be cyclic already, and are told apart all the same: cyclic
classes have a model in trees, so that a clash that is not found is none. And a failure is always due
to a clash, for without one the classes of terms would satisfy the equations.

Cycles are looked for only when all constraints have been imposed. A cycle among the classes of
variables is one among the classes of terms. A node for which types have been read off reaches no
cycle, since its terms stand for these types.
-/

namespace Simplicity

namespace Typing

variable {nodes : Array Node}

theorem lt_of_getElem?_take {nodes : List Node} {count index : Nat} {node : Node}
    (found : (nodes.take count)[index]? = some node) : index < count := by
  have inside := (List.getElem?_eq_some_iff.mp found).1
  rw [List.length_take] at inside
  omega

theorem Backward.take {nodes : List Node} (backward : Backward nodes) (count : Nat) :
    Backward (nodes.take count) := by
  intro index node found
  rw [List.getElem?_take_of_lt (lt_of_getElem?_take found)] at found
  exact backward index node found

section Clash

variable {T : Type} {frame : Frame T} {eval : Term → T}

/-- Where all constraints of a list hold, the variables of all its equations can be assigned. -/
theorem exists_satisfies_all (evaluates : frame.Evaluates eval) (backward : Backward nodes.toList)
    (nonempty : 0 < nodes.size)
    (respects : Respects eval (constraintsUpTo nodes (nodes.size - 1))) :
    ∃ value, frame.Satisfies value (Layout.ofNodes nodes.toList).close.equations ∧
      ∀ index < nodes.size, Stands eval value index ((Layout.ofNodes nodes.toList).endsAt index) := by
  have rules : ∀ index node, nodes.toList[index]? = some node →
      ∀ constraint ∈ ruleConstraints index node, eval constraint.1 = eval constraint.2 := by
    intro index node found
    rw [Array.getElem?_toList] at found
    have inside := (Array.getElem?_eq_some_iff.mp found).1
    exact respects.rule (by omega) found
  have root : ∀ constraint ∈ rootConstraints (nodes.toList.length - 1),
      eval constraint.1 = eval constraint.2 := by
    rw [Array.length_toList]
    exact respects.root (by omega)
  rw [← Array.length_toList] at nonempty
  simpa using Layout.exists_satisfies_close_of_respects evaluates nonempty backward rules root

/-- Without a clash, the classes of terms would satisfy the equations. -/
theorem clashing_of_unsatisfiable (backward : Backward nodes.toList) {index : Nat}
    (inside : index < nodes.size)
    (unsatisfiable : ∀ {T : Type} (frame : Frame T) (value : Var → T),
      ¬ frame.Satisfies value (Layout.upTo nodes.toList index).equations) :
    Clashing (constraintsUpTo nodes index) := by
  by_contra consistent
  have evaluates := Frame.evaluates_classes consistent
  have respects := respects_classOf (constraintsUpTo nodes index)
  simp only [Layout.upTo, Array.length_toList] at unsatisfiable
  by_cases isLast : index + 1 = nodes.size
  · have index_eq : index = nodes.size - 1 := by omega
    subst index_eq
    rcases exists_satisfies_all evaluates backward (by omega) respects with ⟨value, satisfies, -⟩
    rw [if_pos isLast] at unsatisfiable
    exact unsatisfiable _ value satisfies
  · have rules : ∀ earlier node, (nodes.toList.take (index + 1))[earlier]? = some node →
        ∀ constraint ∈ ruleConstraints earlier node, classOf (constraintsUpTo nodes index)
          constraint.1 = classOf (constraintsUpTo nodes index) constraint.2 := by
      intro earlier node found
      have before := lt_of_getElem?_take found
      rw [List.getElem?_take_of_lt before, Array.getElem?_toList] at found
      exact respects.rule (Nat.le_of_lt_succ before) found
    rcases Layout.exists_satisfies_of_respects evaluates (backward.take (index + 1)) rules with
      ⟨value, satisfies, -⟩
    rw [if_neg isLast] at unsatisfiable
    exact unsatisfiable _ value satisfies

/-- Equations that are satisfied by trees leave no room for a clash among the nodes before an index. -/
theorem not_clashing_before (backward : Backward nodes.toList) {index : Nat}
    (inside : index < nodes.size) {value : Var → Tree}
    (satisfies : Frame.trees.Satisfies value
      (Layout.ofNodes (nodes.toList.take index)).equations) {earlier : Nat}
    (before : earlier < index) : ¬ Clashing (constraintsUpTo nodes earlier) := by
  rcases Layout.exists_respects_of_satisfies (backward.take index) satisfies with
    ⟨unknowns, -, respects⟩
  apply (Frame.evaluates_trees unknowns).not_clashing
  rintro left right (⟨other, le, node, found, member⟩ | ⟨isLast, -⟩)
  · apply respects other node _ _ member
    rw [List.getElem?_take_of_lt (by omega), Array.getElem?_toList]
    exact found
  · omega

end Clash

section Solved

variable {solver : Solver} (backward : Backward nodes.toList) (nonempty : 0 < nodes.size)
  (represents : solver.Represents (Layout.ofNodes nodes.toList).close)

include backward nonempty represents

/-- The trees of the classes that solve all equations make all constraints hold. -/
theorem exists_unknowns :
    ∃ unknowns, Respects (Tree.eval unknowns) (constraintsUpTo nodes (nodes.size - 1)) ∧
      ∀ index, Stands (Tree.eval unknowns) solver.classes.tree index
        ((Layout.ofNodes nodes.toList).endsAt index) := by
  have satisfies := (represents.models_iff Frame.trees solver.classes.tree).mp
    (Classes.models_tree represents.isAt.forest)
  rw [Layout.close_eq (by rwa [Array.length_toList]), Array.length_toList] at satisfies
  simp only [satisfies_append, Equation.bind, satisfies_cons, satisfies_nil, Equation.Holds,
    Frame.fits_trees_unit, and_true] at satisfies
  rcases satisfies with ⟨satisfiesRules, ⟨isUnit, source_eq⟩, isUnit', target_eq⟩
  rcases Layout.exists_respects_of_satisfies backward satisfiesRules with
    ⟨unknowns, stands, respects⟩
  refine ⟨unknowns, ?_, stands⟩
  rintro left right (⟨index, -, node, found, member⟩ | ⟨-, member⟩)
  · rw [← Array.getElem?_toList] at found
    exact respects index node found _ member
  · simp only [rootConstraints, List.mem_cons, Prod.mk.injEq, List.not_mem_nil, or_false] at member
    rcases member with ⟨rfl, rfl⟩ | ⟨rfl, rfl⟩
    · rw [← (stands _).1, source_eq, isUnit]
      rfl
    · rw [← (stands _).2, target_eq, isUnit']
      rfl

theorem not_clashing_of_represents : ¬ Clashing (constraintsUpTo nodes (nodes.size - 1)) := by
  rcases exists_unknowns backward nonempty represents with ⟨unknowns, respects, -⟩
  exact (Frame.evaluates_trees unknowns).not_clashing respects

/-- A class that contains itself is a cycle of terms. -/
theorem cyclicAt_of_cyclic {index : Nat} (inside : index < nodes.size)
    (visible : hiddenAt nodes index = false)
    (cyclic : solver.classes.Cyclic (solver.classes.root
        ((Layout.ofNodes nodes.toList).endsAt index).source) ∨
      solver.classes.Cyclic (solver.classes.root
        ((Layout.ofNodes nodes.toList).endsAt index).target)) :
    CyclicAt nodes index := by
  have forest := represents.isAt.forest
  have consistent := not_clashing_of_represents backward nonempty represents
  rcases exists_satisfies_all (Frame.evaluates_classes consistent) backward nonempty
      (respects_classOf _) with ⟨value, satisfies, stands⟩
  have models := (represents.models_iff _ value).mpr satisfies
  refine ⟨visible, ?_⟩
  rw [← (stands index inside).1, ← (stands index inside).2]
  rcases cyclic with cyclicSource | cyclicTarget
  · exact .inl (reachesCycle_of_cyclic forest models cyclicSource)
  · exact .inr (reachesCycle_of_cyclic forest models cyclicTarget)

/-- A node for which an arrow has been read off reaches no cycle. -/
theorem not_cyclicAt_of_resolved {marks : Array Mark} (settled : solver.classes.Settled marks)
    {index : Nat} {node : Node} (isNode : nodes[index]? = some node) {arrow : Option Arrow}
    (resolved : solver.classes.Resolved marks
      (node, (Layout.ofNodes nodes.toList).endsAt index) arrow) : ¬ CyclicAt nodes index := by
  rintro ⟨visible, cyclic⟩
  rw [hiddenAt_eq isNode] at visible
  rcases resolved with ⟨isHidden, -⟩ | ⟨-, found, -, readSource, readTarget⟩
  · rw [isHidden] at visible
    cases visible
  · rcases exists_unknowns backward nonempty represents with ⟨unknowns, respects, stands⟩
    have evaluates := Frame.evaluates_trees unknowns
    rcases cyclic with cyclicSource | cyclicTarget
    · exact not_reachesCycle_of_reads evaluates respects Frame.trees_reading
        ((stands index).1.symm.trans (settled.tree_eq readSource)) cyclicSource
    · exact not_reachesCycle_of_reads evaluates respects Frame.trees_reading
        ((stands index).2.symm.trans (settled.tree_eq readTarget)) cyclicTarget

end Solved

/-- The nodes among which arrows have been read off reach no cycle. -/
theorem not_cyclicAt_of_forall₂ {solver : Solver} (backward : Backward nodes.toList)
    (represents : solver.Represents (Layout.ofNodes nodes.toList).close) {marks : Array Mark}
    (settled : solver.classes.Settled marks) {pairs : List (Node × Ends)}
    {new : List (Option Arrow)}
    (resolved : List.Forall₂ (solver.classes.Resolved marks) pairs new)
    (starts : pairs <+: nodes.toList.zip (Layout.ofNodes nodes.toList).ends.toList) {index : Nat}
    (inside : index < pairs.length) : ¬ CyclicAt nodes index := by
  rcases getElem?_of_forall₂ resolved (List.getElem?_eq_getElem inside) with
    ⟨arrow, -, resolvedPair⟩
  rcases getElem?_zip_ends.mp (List.prefix_iff_getElem?.mp starts index inside) with
    ⟨isNode, isEnds⟩
  have insideNodes := (Array.getElem?_eq_some_iff.mp isNode).1
  apply not_cyclicAt_of_resolved backward (by omega) represents settled isNode
  rw [isEnds]
  exact resolvedPair

/-- When all constraints have been imposed, the arrows of all nodes are read off, or the first cyclic
node is blamed. -/
theorem resolveAll_outcome {solver : Solver} (backward : Backward nodes.toList)
    (represents : solver.Represents (Layout.ofNodes nodes.toList).close) :
    let resolution := resolveAll solver.classes
      (nodes.toList.zip (Layout.ofNodes nodes.toList).ends.toList)
      (Array.replicate solver.classes.size .unvisited) #[]
    (∃ index, resolution = .error (.occursCheck index) ∧ FirstCyclic nodes index) ∨
      (∃ arrows, resolution = .ok arrows) ∧ ∀ index < nodes.size, ¬ CyclicAt nodes index := by
  intro resolution
  rcases @Classes.resolveAll_spec solver.classes represents.isAt.forest
      (nodes.toList.zip (Layout.ofNodes nodes.toList).ends.toList) _ #[]
      solver.classes.settled_replicate solver.classes.not_entered_replicate
      represents.solves.pairs_within with
    ⟨marks, new, ran, settled, -, resolved⟩ |
      ⟨before, pair, after, marks, new, split, ran, visible, cyclic, settled, -, resolved⟩
  · refine .inr ⟨⟨_, ran⟩, ?_⟩
    intro index inside
    apply not_cyclicAt_of_forall₂ backward represents settled resolved (List.prefix_refl _)
    simpa using inside
  · have isPair : (nodes.toList.zip (Layout.ofNodes nodes.toList).ends.toList)[before.length]? =
        some pair := by simp [split]
    rcases getElem?_zip_ends.mp isPair with ⟨isNode, isEnds⟩
    have inside := (Array.getElem?_eq_some_iff.mp isNode).1
    rw [show (#[] : Array (Option Arrow)).size + before.length = before.length from
      Nat.zero_add _] at ran
    refine .inl ⟨before.length, ran, inside, ?_, ?_⟩
    · apply cyclicAt_of_cyclic backward (by omega) represents inside
      · rw [hiddenAt_eq isNode]
        exact visible
      · rw [isEnds]
        exact cyclic
    · intro earlier lt
      have starts : before <+: nodes.toList.zip (Layout.ofNodes nodes.toList).ends.toList :=
        ⟨pair :: after, split.symm⟩
      exact not_cyclicAt_of_forall₂ backward represents settled resolved starts lt

/-- What inference may come to, with the reason for it. -/
theorem inferArrows_outcome (backward : Backward nodes.toList) :
    (∃ index left right, inferArrows nodes = .error (.unify index left right) ∧
        FirstClash nodes index) ∨
      (∀ index < nodes.size, ¬ Clashing (constraintsUpTo nodes index)) ∧
        ((∃ index, inferArrows nodes = .error (.occursCheck index) ∧ FirstCyclic nodes index) ∨
          (∃ arrows, inferArrows nodes = .ok arrows) ∧
            ∀ index < nodes.size, ¬ CyclicAt nodes index) := by
  rcases inferArrows_located nodes with
    ⟨solver, represents, continues⟩ |
      ⟨index, left, right, failed, inside, ⟨solver, forest, satisfies⟩, unsatisfiable⟩
  · right
    constructor
    · intro index inside clashes
      exact not_clashing_of_represents backward (by omega) represents
        (clashes.mono (constraintsUpTo_subset (by omega) (by omega)))
    · rw [continues]
      exact resolveAll_outcome backward represents
  · left
    have clashes := clashing_of_unsatisfiable backward inside unsatisfiable
    have satisfiesTrees := satisfies Frame.trees solver.classes.tree (Classes.models_tree forest)
    exact ⟨index, left, right, failed, inside, clashes,
      fun _ before => not_clashing_before backward inside satisfiesTrees before⟩

end Typing

open Typing in
/-- Inference fails for two reasons, both of which can be told from the constraints of the nodes alone,
and blames the first node for which the reason holds. It reports mismatched constructors at the first
node up to which the constraints clash. If none clash, it reports an infinite type at the first node
that is not hidden and from whose source or target the components of terms lead to a cycle. Otherwise
it succeeds. Nodes may refer to themselves. -/
theorem inferArrows_fails_iff_first (nodes : Array Node)
    (backward : ∀ index (inside : index < nodes.size), ∀ child ∈ (nodes[index]).children,
      child ≤ index) :
    (∀ index, (∃ left right, inferArrows nodes = .error (.unify index left right)) ↔
      FirstClash nodes index) ∧
    (∀ index, inferArrows nodes = .error (.occursCheck index) ↔
      (∀ other < nodes.size, ¬ Clashing (constraintsUpTo nodes other)) ∧
        FirstCyclic nodes index) ∧
    ((∃ arrows, inferArrows nodes = .ok arrows) ↔
      (∀ index < nodes.size, ¬ Clashing (constraintsUpTo nodes index)) ∧
        ∀ index < nodes.size, ¬ CyclicAt nodes index) := by
  have backward : Backward nodes.toList := by
    intro index node found
    rw [Array.getElem?_toList] at found
    rcases Array.getElem?_eq_some_iff.mp found with ⟨inside, rfl⟩
    exact backward index inside
  rcases inferArrows_outcome backward with
    ⟨found, left, right, failed, first⟩ | ⟨consistent, ⟨found, failed, first⟩ | ⟨⟨arrows, ran⟩, acyclic⟩⟩
  · have inconsistent : ¬ ∀ index < nodes.size, ¬ Clashing (constraintsUpTo nodes index) :=
      fun consistent => consistent found first.inside first.clashes
    rw [failed]
    refine ⟨?_, ?_, ?_⟩
    · intro index
      constructor
      · rintro ⟨_, _, same⟩
        cases same
        exact first
      · intro first'
        rw [first.unique first']
        exact ⟨left, right, rfl⟩
    · simp only [Except.error.injEq, reduceCtorEq, inconsistent, false_and, implies_true]
    · simp only [reduceCtorEq, exists_false, inconsistent, false_and]
  · have noClash : ∀ index, ¬ FirstClash nodes index :=
      fun index clash => consistent index clash.inside clash.clashes
    have cyclic : ¬ ∀ index < nodes.size, ¬ CyclicAt nodes index :=
      fun acyclic => acyclic found first.inside first.cyclic
    rw [failed]
    refine ⟨?_, ?_, ?_⟩
    · simp only [Except.error.injEq, reduceCtorEq, exists_false, noClash, implies_true]
    · intro index
      constructor
      · intro same
        cases same
        exact ⟨consistent, first⟩
      · rintro ⟨-, first'⟩
        rw [first.unique first']
    · simp only [reduceCtorEq, exists_false, cyclic, and_false]
  · have noClash : ∀ index, ¬ FirstClash nodes index :=
      fun index clash => consistent index clash.inside clash.clashes
    have noCycle : ∀ index, ¬ FirstCyclic nodes index :=
      fun index first => acyclic index first.inside first.cyclic
    rw [ran]
    refine ⟨?_, ?_, ?_⟩
    · simp only [reduceCtorEq, exists_false, noClash, implies_true]
    · simp only [reduceCtorEq, noCycle, and_false, implies_true]
    · exact ⟨fun _ => ⟨consistent, acyclic⟩, fun _ => ⟨arrows, rfl⟩⟩

open Typing in
/-- A pair of the identity with itself that is fed back into the identity has an infinite type, which is
found at the identity, the first node. If that list is made to end with the composition, then the
type of the root clashes with a product there, before any infinite type is looked for. A node that
injects its own target clashes with the type of the root, too. -/
theorem inferArrows_fails_iff_first_doubled :
    ((∀ other < 4, ¬ Clashing (constraintsUpTo #[.iden, .pair 0 0, .comp 1 0, .unit] other)) ∧
      FirstCyclic #[.iden, .pair 0 0, .comp 1 0, .unit] 0) ∧
    FirstClash #[.iden, .pair 0 0, .comp 1 0] 2 ∧ FirstClash #[.injl 0] 0 := by
  have cyclic := inferArrows_fails_iff_first #[.iden, .pair 0 0, .comp 1 0, .unit] (by decide)
  have clashing := inferArrows_fails_iff_first #[.iden, .pair 0 0, .comp 1 0] (by decide)
  have selfClashing := inferArrows_fails_iff_first #[.injl 0] (by decide)
  exact ⟨(cyclic.2.1 0).mp rfl, (clashing.1 2).mp ⟨_, _, rfl⟩, (selfClashing.1 0).mp ⟨_, _, rfl⟩⟩

end Simplicity
