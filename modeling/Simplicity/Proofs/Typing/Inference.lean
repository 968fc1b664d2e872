import Simplicity.Proofs.Typing.Constraint
import Simplicity.Proofs.Typing.Layout

/-!
# Least typings

Classes of variables solve the equations of a list of nodes if their models are the assignments that
satisfy the equations. Whatever such classes are, and however they were found, reading types off
them gives the least typing of the list, or fails if the list has no typing at all:

* the classes, assigned to their own variables, satisfy the equations, and the types that they are
  marked with are a reading of them, so that the arrows read off are a typing;
* any other typing extends to a model, in which no class contains itself, and the types that are
  read off are below those of the model.

Inference finds such classes or a contradiction in the equations, and so it is sound.
-/

namespace Simplicity

/-- Each arrow is below the arrow at the same index. -/
def ArrowsBelow (arrows others : Array (Option Arrow)) : Prop :=
  ∀ index arrow, arrowAt arrows index = some arrow →
    ∃ other, arrowAt others index = some other ∧ arrow.Below other

/-- A typing that is below every typing. -/
structure LeastTyping (nodes : Array Node) (arrows : Array (Option Arrow)) : Prop where
  wellTyped : WellTyped nodes arrows
  below : ∀ typing, WellTyped nodes typing → ArrowsBelow arrows typing

theorem LeastTyping.unique {nodes : Array Node} {arrows others : Array (Option Arrow)}
    (least : LeastTyping nodes arrows) (least' : LeastTyping nodes others) : arrows = others := by
  have size_eq : arrows.size = others.size :=
    least.wellTyped.size_eq.trans least'.wellTyped.size_eq.symm
  have below := least.below others least'.wellTyped
  have above := least'.below arrows least.wellTyped
  apply Array.ext size_eq
  intro index inside inside'
  have entry : ∀ {list : Array (Option Arrow)} (inside : index < list.size),
      list[index] = arrowAt list index := by
    intro list inside
    simp [arrowAt, Array.getD_eq_getD_getElem?, inside]
  rw [entry inside, entry inside']
  cases found : arrowAt arrows index with
  | some arrow =>
      rcases below index arrow found with ⟨other, found', belowOther⟩
      rcases above index other found' with ⟨arrow', again, aboveArrow⟩
      rw [found] at again
      cases again
      rw [found', belowOther.antisymm aboveArrow]
  | none =>
      cases found' : arrowAt others index with
      | none => rfl
      | some other =>
          rcases above index other found' with ⟨arrow, found'', -⟩
          rw [found] at found''
          cases found''

namespace Typing

/-- The models of classes are the assignments that satisfy the equations of a layout, as far as its
variables go. -/
structure Classes.Solves (classes : Classes) (layout : Layout) : Prop where
  forest : classes.Forest
  size_le : layout.frontier.next ≤ classes.size
  sound : ∀ {T : Type} (frame : Frame T) (value : Var → T), frame.Models value classes →
    frame.Satisfies value layout.equations
  complete : ∀ {T : Type} (frame : Frame T) (value : Var → T),
    frame.Satisfies value layout.equations →
      ∃ value', (∀ var < layout.frontier.next, value' var = value var) ∧
        frame.Models value' classes

theorem Solver.Represents.solves {solver : Solver} {layout : Layout}
    (represents : solver.Represents layout) : solver.classes.Solves layout where
  forest := represents.isAt.forest
  size_le := Nat.le_of_eq represents.isAt.size_eq.symm
  sound frame value := (represents.models_iff frame value).mp
  complete frame value satisfies :=
    ⟨value, fun _ _ => rfl, (represents.models_iff frame value).mpr satisfies⟩

namespace Classes

variable {classes : Classes}

/-- What is read off for a node: nothing if it is hidden, and otherwise the types of its ends. -/
def Resolved (classes : Classes) (marks : Array Mark) (pair : Node × Ends)
    (arrow : Option Arrow) : Prop :=
  pair.1.isHidden = true ∧ arrow = none ∨
    pair.1.isHidden = false ∧ ∃ found, arrow = some found ∧
      ReadsArrow (Read marks) classes.root pair.2 found

/-- The types of the ends of all nodes are read off, or the first node is blamed that has a type which
contains itself. -/
theorem resolveAll_spec (forest : classes.Forest) {pairs : List (Node × Ends)} {marks : Array Mark}
    {arrows : Array (Option Arrow)} (settled : classes.Settled marks)
    (noneEntered : ∀ var, ¬ Entered marks var)
    (within : ∀ pair ∈ pairs, pair.2.Within classes.size) :
    (∃ marks' new, resolveAll classes pairs marks arrows = .ok (arrows ++ new.toArray) ∧
        classes.Settled marks' ∧ (∀ {var ty}, Read marks var ty → Read marks' var ty) ∧
        List.Forall₂ (classes.Resolved marks') pairs new) ∨
      ∃ before pair after marks' new, pairs = before ++ pair :: after ∧
        resolveAll classes pairs marks arrows =
          .error (.occursCheck (arrows.size + before.length)) ∧
        pair.1.isHidden = false ∧
        (classes.Cyclic (classes.root pair.2.source) ∨
          classes.Cyclic (classes.root pair.2.target)) ∧
        classes.Settled marks' ∧ (∀ {var ty}, Read marks var ty → Read marks' var ty) ∧
        List.Forall₂ (classes.Resolved marks') before new := by
  induction pairs generalizing marks arrows with
  | nil => exact .inl ⟨marks, [], by simp [resolveAll], settled, fun read => read, .nil⟩
  | cons pair pairs ih =>
      rcases pair with ⟨node, ends⟩
      simp only [List.forall_mem_cons] at within
      cases isHidden : node.isHidden with
      | true =>
          have skips : resolveAll classes ((node, ends) :: pairs) marks arrows =
              resolveAll classes pairs marks (arrows.push none) := by
            rw [resolveAll, if_pos isHidden]
          rw [skips]
          rcases @ih marks (arrows.push none) settled noneEntered within.2 with
            ⟨marks', new, ran, settled', keeps, resolved⟩ |
              ⟨before, pair, after, marks', new, rfl, ran, visible, cyclic, settled', keeps,
                resolved⟩
          · refine .inl ⟨marks', none :: new, ?_, settled', keeps,
              .cons (.inl ⟨isHidden, rfl⟩) resolved⟩
            rw [ran]
            simp
          · refine .inr ⟨(node, ends) :: before, pair, after, marks', none :: new, rfl, ?_, visible,
              cyclic, settled', keeps, .cons (.inl ⟨isHidden, rfl⟩) resolved⟩
            rw [ran, Array.size_push, List.length_cons, Nat.add_right_comm, Nat.add_assoc]
      | false =>
          have visible : ¬ node.isHidden = true := by simp [isHidden]
          rcases @resolve_spec classes arrows.size marks forest settled noneEntered ends.source
              within.1.1 with
            ⟨source, marks₁, ran₁, settled₁, noneEntered₁, keeps₁, readSource⟩ | ⟨ran₁, cyclic⟩
          · rcases @resolve_spec classes arrows.size marks₁ forest settled₁ noneEntered₁
                ends.target within.1.2 with
              ⟨target, marks₂, ran₂, settled₂, noneEntered₂, keeps₂, readTarget⟩ | ⟨ran₂, cyclic⟩
            · have continues : resolveAll classes ((node, ends) :: pairs) marks arrows =
                  resolveAll classes pairs marks₂ (arrows.push (some ⟨source, target⟩)) := by
                rw [resolveAll, if_neg visible, ran₁]
                change (classes.resolve marks₁ ends.target arrows.size >>= _) = _
                rw [ran₂]
                rfl
              rw [continues]
              rcases @ih marks₂ (arrows.push (some ⟨source, target⟩)) settled₂ noneEntered₂
                  within.2 with
                ⟨marks', new, ran, settled', keeps, resolved⟩ |
                  ⟨before, pair, after, marks', new, rfl, ran, visible, cyclic, settled', keeps,
                    resolved⟩
              · refine .inl ⟨marks', some ⟨source, target⟩ :: new, ?_, settled',
                  fun read => keeps (keeps₂ (keeps₁ read)), .cons ?_ resolved⟩
                · rw [ran]
                  simp
                · exact .inr ⟨isHidden, _, rfl, keeps (keeps₂ readSource), keeps readTarget⟩
              · refine .inr ⟨(node, ends) :: before, pair, after, marks',
                  some ⟨source, target⟩ :: new, rfl, ?_, visible, cyclic, settled',
                  fun read => keeps (keeps₂ (keeps₁ read)), .cons ?_ resolved⟩
                · rw [ran, Array.size_push, List.length_cons, Nat.add_right_comm, Nat.add_assoc]
                · exact .inr ⟨isHidden, _, rfl, keeps (keeps₂ readSource), keeps readTarget⟩
            · refine .inr ⟨[], (node, ends), pairs, marks, [], rfl, ?_, isHidden, .inr cyclic,
                settled, fun read => read, .nil⟩
              rw [resolveAll, if_neg visible, ran₁]
              change (classes.resolve marks₁ ends.target arrows.size >>= _) = _
              rw [ran₂]
              rfl
          · refine .inr ⟨[], (node, ends), pairs, marks, [], rfl, ?_, isHidden, .inl cyclic, settled,
              fun read => read, .nil⟩
            rw [resolveAll, if_neg visible, ran₁]
            rfl

theorem settled_replicate (classes : Classes) :
    classes.Settled (Array.replicate classes.size .unvisited) := by
  refine ⟨Array.size_replicate, ?_⟩
  intro var ty read
  simp [Read, Array.getD_eq_getD_getElem?, Array.getElem?_replicate] at read
  split at read <;> cases read

theorem not_entered_replicate (classes : Classes) (var : Var) :
    ¬ Entered (Array.replicate classes.size .unvisited) var := by
  intro entered
  simp [Entered, Array.getD_eq_getD_getElem?, Array.getElem?_replicate] at entered
  split at entered <;> cases entered

end Classes

section Least

variable {dag : Dag} {classes : Classes}

/-- The nodes of a list with the variables that they have been given. -/
abbrev pairsOf (dag : Dag) : List (Node × Ends) :=
  dag.nodes.toList.zip (Layout.ofNodes dag.nodes.toList).ends.toList

theorem getElem?_zip_ends {nodes : Array Node} {index : Nat} {pair : Node × Ends} :
    (nodes.toList.zip (Layout.ofNodes nodes.toList).ends.toList)[index]? = some pair ↔
      nodes[index]? = some pair.1 ∧ (Layout.ofNodes nodes.toList).endsAt index = pair.2 := by
  have size_eq : (Layout.ofNodes nodes.toList).ends.size = nodes.size := by simp
  rw [List.getElem?_zip_eq_some, Array.getElem?_toList, Array.getElem?_toList]
  apply and_congr_right
  intro found
  have inside := (Array.getElem?_eq_some_iff.mp found).1
  rw [Layout.endsAt, Array.getD_eq_getD_getElem?, Array.getElem?_eq_getElem (by omega)]
  simp

theorem getElem?_pairsOf {index : Nat} {pair : Node × Ends} :
    (pairsOf dag)[index]? = some pair ↔ dag.nodes[index]? = some pair.1 ∧
      (Layout.ofNodes dag.nodes.toList).endsAt index = pair.2 :=
  getElem?_zip_ends

theorem exists_arrow_of_visible {typing : Array (Option Arrow)} (typed : WellTyped dag.nodes typing)
    {index : Nat} {node : Node} (isNode : dag.nodes[index]? = some node)
    (visible : node.isHidden = false) : ∃ arrow, arrowAt typing index = some arrow := by
  rw [← Option.ne_none_iff_exists']
  intro isNone
  rw [typed.hidden_iff index (Array.getElem?_eq_some_iff.mp isNode).1, hiddenAt_eq isNode,
    visible] at isNone
  cases isNone

theorem getElem?_of_forall₂ {α β : Type} {R : α → β → Prop} {xs : List α} {ys : List β}
    (related : List.Forall₂ R xs ys) {index : Nat} {x : α} (found : xs[index]? = some x) :
    ∃ y, ys[index]? = some y ∧ R x y := by
  rcases List.getElem?_eq_some_iff.mp found with ⟨inside, rfl⟩
  have inside' : index < ys.length := related.length_eq ▸ inside
  exact ⟨ys[index], List.getElem?_eq_getElem inside', related.get inside inside'⟩

theorem endsAt_within_close {nodes : Array Node} {index : Nat} (inside : index < nodes.size) :
    ((Layout.ofNodes nodes.toList).endsAt index).Within
      (Layout.ofNodes nodes.toList).close.frontier.next := by
  rw [← Layout.endsAt_close]
  apply Layout.endsAt_within (Layout.valid_ofNodes _).close
  rw [Layout.ends_close, Layout.size_ends_ofNodes, Array.length_toList]
  exact inside

theorem Classes.Solves.pairs_within {nodes : Array Node}
    (solves : classes.Solves (Layout.ofNodes nodes.toList).close) :
    ∀ pair ∈ nodes.toList.zip (Layout.ofNodes nodes.toList).ends.toList,
      pair.2.Within classes.size := by
  intro pair member
  rcases List.mem_iff_getElem?.mp member with ⟨index, found⟩
  rcases getElem?_zip_ends.mp found with ⟨isNode, isEnds⟩
  rw [← isEnds]
  exact (endsAt_within_close (Array.getElem?_eq_some_iff.mp isNode).1).mono solves.size_le

/-- A typing extends to a model of any classes that solve the equations. -/
theorem exists_models_of_wellTyped
    (solves : classes.Solves (Layout.ofNodes dag.nodes.toList).close)
    {typing : Array (Option Arrow)} (typed : WellTyped dag.nodes typing) :
    ∃ value, Frame.types.Models value classes ∧
      ∀ index < dag.nodes.size, ∀ arrow, arrowAt typing index = some arrow →
        ReadsArrow (· = ·) value ((Layout.ofNodes dag.nodes.toList).endsAt index) arrow := by
  rcases exists_satisfies_of_wellTyped typed with ⟨value, satisfies, reads⟩
  rcases solves.complete Frame.types value satisfies with ⟨value', old, models⟩
  refine ⟨value', models, ?_⟩
  intro index inside arrow found
  exact readsArrow_congr old (endsAt_within_close inside) (reads index inside arrow found)

/-- Reading types off classes that solve the equations gives the least typing, if there is one. -/
theorem resolveAll_least (nonempty : 0 < dag.size)
    (rootVisible : hiddenAt dag.nodes (dag.size - 1) = false)
    (solves : classes.Solves (Layout.ofNodes dag.nodes.toList).close) :
    (∃ arrows, resolveAll classes (pairsOf dag) (Array.replicate classes.size .unvisited) #[] =
        .ok arrows ∧ LeastTyping dag.nodes arrows) ∨
      (∃ error, resolveAll classes (pairsOf dag) (Array.replicate classes.size .unvisited) #[] =
        .error error) ∧ ¬ ∃ typing, WellTyped dag.nodes typing := by
  have forest := solves.forest
  rcases @Classes.resolveAll_spec classes forest (pairsOf dag) _ #[] classes.settled_replicate
      classes.not_entered_replicate solves.pairs_within with
    ⟨marks, new, ran, settled, -, resolved⟩ |
      ⟨before, pair, after, -, -, split, ran, visible, cyclic, -⟩
  · left
    rw [Array.empty_append] at ran
    refine ⟨new.toArray, ran, ?_⟩
    have reads : ReadsAll (Read marks) classes.root dag.nodes new.toArray := by
      intro index node found
      have isPair : (pairsOf dag)[index]? =
          some (node, (Layout.ofNodes dag.nodes.toList).endsAt index) :=
        getElem?_pairsOf.mpr ⟨found, rfl⟩
      rcases getElem?_of_forall₂ resolved isPair with ⟨arrow, isArrow, resolvedArrow⟩
      have arrow_eq : arrowAt new.toArray index = arrow := by
        simp [arrowAt, Array.getD_eq_getD_getElem?, isArrow]
      rw [arrow_eq]
      exact resolvedArrow
    have size_eq : new.toArray.size = dag.nodes.size := by
      have lengths := resolved.length_eq
      simp only [pairsOf, List.length_zip, Array.length_toList, Layout.size_ends_ofNodes,
        Nat.min_self] at lengths
      exact lengths.symm
    constructor
    case wellTyped =>
      apply wellTyped_of_readsAll nonempty rootVisible settled.reading _ size_eq reads
      exact solves.sound classes.frame classes.root (Classes.models_frame forest)
    case below =>
      intro typing typed index arrow found
      rcases exists_models_of_wellTyped solves typed with ⟨value, models, readsTyping⟩
      have inside : index < dag.nodes.size := size_eq ▸ lt_size_of_arrowAt found
      have isNode := Array.getElem?_eq_getElem inside
      rcases reads index _ isNode with ⟨-, isNone⟩ | ⟨visible, arrow', found', readsArrow⟩
      · rw [isNone] at found
        cases found
      · rw [found'] at found
        cases found
        rcases exists_arrow_of_visible typed isNode visible with ⟨other, foundOther⟩
        have readsOther := readsTyping index inside other foundOther
        exact ⟨other, foundOther,
          settled.below models Frame.types_reading readsArrow.1 readsOther.1,
          settled.below models Frame.types_reading readsArrow.2 readsOther.2⟩
  · right
    refine ⟨⟨_, ran⟩, ?_⟩
    rintro ⟨typing, typed⟩
    rcases exists_models_of_wellTyped solves typed with ⟨value, models, reads⟩
    have found : (pairsOf dag)[before.length]? = some pair := by simp [split]
    rcases getElem?_pairsOf.mp found with ⟨isNode, isEnds⟩
    rcases exists_arrow_of_visible typed isNode visible with ⟨arrow, foundArrow⟩
    have readsArrow := reads _ (Array.getElem?_eq_some_iff.mp isNode).1 arrow foundArrow
    rw [isEnds] at readsArrow
    rcases cyclic with cyclicSource | cyclicTarget
    · exact Classes.not_cyclic_of_reads forest models Frame.types_reading readsArrow.1 cyclicSource
    · exact Classes.not_cyclic_of_reads forest models Frame.types_reading readsArrow.2 cyclicTarget

/-- Inference gives the least typing, if there is one. -/
theorem inferArrows_least (nonempty : 0 < dag.size)
    (rootVisible : hiddenAt dag.nodes (dag.size - 1) = false) :
    (∃ arrows, inferArrows dag.nodes = .ok arrows ∧ LeastTyping dag.nodes arrows) ∨
      (∃ error, inferArrows dag.nodes = .error error) ∧
        ¬ ∃ typing, WellTyped dag.nodes typing := by
  rcases inferArrows_eq dag.nodes with ⟨solver, represents, ran⟩ | ⟨failed, unsatisfiable⟩
  · rw [ran]
    exact resolveAll_least nonempty rootVisible represents.solves
  · refine .inr ⟨failed, ?_⟩
    rintro ⟨typing, typed⟩
    rcases exists_satisfies_of_wellTyped typed with ⟨value, satisfies, -⟩
    exact unsatisfiable Frame.types value satisfies

end Least

end Typing

/-- Inferred arrows follow the typing rules: there is one for every node but the hidden ones, the
root is `1 ⊢ 1`, and each node has the arrow that its combinator makes of those of its children. -/
theorem wellTyped_of_inferArrows {dag : Dag} {arrows : Array (Option Arrow)}
    (nonempty : 0 < dag.size) (rootVisible : hiddenAt dag.nodes (dag.size - 1) = false)
    (inferred : inferArrows dag.nodes = .ok arrows) : WellTyped dag.nodes arrows := by
  rcases Typing.inferArrows_least nonempty rootVisible with
    ⟨found, ran, least⟩ | ⟨⟨error, failed⟩, -⟩
  · rw [inferred] at ran
    cases ran
    exact least.wellTyped
  · rw [inferred] at failed
    cases failed

theorem wellTyped_prunedChoice : ∃ dag,
    Dag.ofNodes #[.witness, .unit, .hidden .zero, .case 1 2, .comp 0 3] = .ok dag ∧
      0 < dag.size ∧ hiddenAt dag.nodes (dag.size - 1) = false ∧
      inferArrows dag.nodes = .ok #[
        some ⟨.unit, .prod (.sum .unit .unit) .unit⟩, some ⟨.prod .unit .unit, .unit⟩, none,
        some ⟨.prod (.sum .unit .unit) .unit, .unit⟩, some ⟨.unit, .unit⟩] ∧
      WellTyped dag.nodes #[
        some ⟨.unit, .prod (.sum .unit .unit) .unit⟩, some ⟨.prod .unit .unit, .unit⟩, none,
        some ⟨.prod (.sum .unit .unit) .unit, .unit⟩, some ⟨.unit, .unit⟩] :=
  ⟨_, rfl, by decide, by decide, rfl, wellTyped_of_inferArrows (by decide) (by decide) rfl⟩

end Simplicity
