import Simplicity.Proofs.Typing.Layout
import Simplicity.Proofs.Typing.Tree

/-!
# Terms and variables

The equations that inference solves give a variable to every part of a term. They say the same as the
constraints between terms:

* where constraints hold, the variables of the equations can be assigned what the named parts stand
  for, and the equations are satisfied;
* where the equations are satisfied by trees, the constraints hold, because a tree is determined by its
  constructor and its parts.

Both are shown for the rule of a node first and then for lists of nodes, node after node.
-/

namespace Simplicity.Typing

variable {T : Type} {frame : Frame T} {eval : Term → T} {value : Var → T}

/-- The ends of a node are assigned what its source and its target stand for. -/
def Stands (eval : Term → T) (value : Var → T) (index : Nat) (ends : Ends) : Prop :=
  value ends.source = eval (.source index) ∧ value ends.target = eval (.target index)

/-- The variable of 256-bit words, once there is one, is assigned their type. -/
def StandsWord (eval : Term → T) (value : Var → T) (frontier : Frontier) : Prop :=
  ∀ word, frontier.word = some word → value word = eval (.ofTy .word256)

theorem Stands.congr {value' : Var → T} {index size : Nat} {ends : Ends}
    (stands : Stands eval value index ends) (within : ends.Within size)
    (agree : ∀ var < size, value' var = value var) : Stands eval value' index ends :=
  ⟨(agree _ within.1).trans stands.1, (agree _ within.2).trans stands.2⟩

theorem StandsWord.congr {value' : Var → T} {frontier : Frontier}
    (standsWord : StandsWord eval value frontier) (valid : frontier.Valid)
    (agree : ∀ var < frontier.next, value' var = value var) : StandsWord eval value' frontier :=
  fun word isWord => (agree word (valid word isWord)).trans (standsWord word isWord)

section Assignment

/-- Assigns to variables from a number on what terms stand for. -/
def assign (eval : Term → T) (value : Var → T) (next : Nat) (new : List Term) (var : Nat) : T :=
  if var < next then value var else eval (new.getD (var - next) .unit)

variable {next : Nat} {new : List Term}

theorem assign_old {var : Nat} (old : var < next) : assign eval value next new var = value var := by
  rw [assign, if_pos old]

@[simp]
theorem assign_next : assign eval value next new next = eval (new.getD 0 .unit) := by
  simp [assign]

@[simp]
theorem assign_add (count : Nat) :
    assign eval value next new (next + count) = eval (new.getD count .unit) := by
  simp [assign]

theorem satisfies_doublings_of_words (evaluates : frame.Evaluates eval) {times : Nat}
    (level word : Nat)
    (isWord : ∀ count ≤ times, value (word + count) = eval (.ofTy (.word (level + count)))) :
    frame.Satisfies value (doublings times word (word + 1)) := by
  induction times generalizing level word with
  | zero => exact satisfies_nil
  | succ times ih =>
      rw [doublings, satisfies_cons]
      constructor
      · have half : value word = eval (.ofTy (.word level)) := isWord 0 (by omega)
        have doubled := isWord 1 (by omega)
        change frame.IsProd (value (word + 1)) (value word) (value word)
        rw [doubled, half]
        exact evaluates.prod _ _
      · apply ih (level + 1)
        intro count few
        have shifted := isWord (count + 1) (by omega)
        rw [show word + 1 + count = word + (count + 1) by omega, shifted,
          show level + 1 + count = level + (count + 1) by omega]

theorem exists_satisfies_words (evaluates : frame.Evaluates eval) (value : Var → T) (next : Nat) :
    ∃ value', (∀ var < next, value' var = value var) ∧
      frame.Satisfies value' (wordEquations next) ∧ value' (next + 9) = eval (.ofTy .word256) := by
  refine ⟨assign eval value next (.unit :: (List.range 9).map fun level => .ofTy (.word level)),
    fun _ old => assign_old old, ?_, ?_⟩
  · simp only [wordEquations, satisfies_cons]
    refine ⟨?_, ?_, ?_⟩
    · simpa [Equation.Holds, Frame.Fits] using evaluates.unit
    · simpa [Equation.Holds, Frame.Fits, Ty.word, Ty.bit, Term.ofTy] using
        evaluates.sum .unit .unit
    · apply satisfies_doublings_of_words evaluates 0
      intro count few
      rw [show next + 1 + count = next + (count + 1) by omega, assign_add]
      simp [show count < 9 by omega]
  · simp [Ty.word256]

theorem exists_satisfies_disconnect (evaluates : frame.Evaluates eval) {index leftIndex rightIndex : Nat}
    {own left right : Ends} {word : Var}
    (respects : ∀ constraint ∈ ruleConstraints index (.disconnect leftIndex rightIndex),
      eval constraint.1 = eval constraint.2)
    (ownWithin : own.Within next) (leftWithin : left.Within next) (rightWithin : right.Within next)
    (wordInside : word < next) (isWord : value word = eval (.ofTy .word256))
    (ownStands : Stands eval value index own) (leftStands : Stands eval value leftIndex left)
    (rightStands : Stands eval value rightIndex right) :
    ∃ value', (∀ var < next, value' var = value var) ∧
      frame.Satisfies value' (disconnectEquations own word next left right) := by
  simp only [ruleConstraints, List.forall_mem_cons] at respects
  refine ⟨assign eval value next [.prod (.ofTy .word256) (.source index), .inner index 0,
    .prod (.inner index 0) (.source rightIndex), .prod (.inner index 0) (.target rightIndex)],
    fun _ old => assign_old old, ?_⟩
  simp [disconnectEquations, Equation.bind, Equation.Holds, Frame.Fits, assign_old ownWithin.1,
    assign_old ownWithin.2, assign_old leftWithin.1, assign_old leftWithin.2,
    assign_old rightWithin.1, assign_old rightWithin.2, assign_old wordInside, isWord, ownStands.1,
    ownStands.2, leftStands.1, leftStands.2, rightStands.1, rightStands.2, evaluates.prod, respects]

/-- Where the constraints of a node hold, the variables of its equations can be assigned. -/
theorem exists_satisfies_of_respects (evaluates : frame.Evaluates eval) {index : Nat} {own : Ends}
    {frontier : Frontier} {node : Node} {ends : Nat → Ends}
    (respects : ∀ constraint ∈ ruleConstraints index node, eval constraint.1 = eval constraint.2)
    (valid : frontier.Valid) (ownWithin : own.Within frontier.next)
    (childrenWithin : ∀ child ∈ node.children, (ends child).Within frontier.next)
    (standsWord : StandsWord eval value frontier) (ownStands : Stands eval value index own)
    (childStands : ∀ child ∈ node.children, Stands eval value child (ends child)) :
    ∃ value', (∀ var < frontier.next, value' var = value var) ∧
      frame.Satisfies value' (ruleEquations own frontier (node.map ends)).1 ∧
      StandsWord eval value' (ruleEquations own frontier (node.map ends)).2 := by
  have old : ∀ new, ∀ var < frontier.next, assign eval value frontier.next new var = value var :=
    fun _ _ inside => assign_old inside
  have standsOwn : ∀ new, Stands eval (assign eval value frontier.next new) index own :=
    fun new => ownStands.congr ownWithin (old new)
  have standsChild : ∀ {child}, child ∈ node.children → ∀ new,
      Stands eval (assign eval value frontier.next new) child (ends child) :=
    fun member new => (childStands _ member).congr (childrenWithin _ member) (old new)
  have standsWord' : ∀ new, StandsWord eval (assign eval value frontier.next new) frontier :=
    fun new => standsWord.congr valid (old new)
  cases node with
  | iden =>
      simp only [ruleConstraints, List.forall_mem_cons] at respects
      refine ⟨assign eval value frontier.next [], old _, ?_, standsWord' _⟩
      simp [Combinator.map, Combinator.mapMem, ruleEquations, Equation.Holds, (standsOwn _).1,
        (standsOwn _).2, respects]
  | unit =>
      simp only [ruleConstraints, List.forall_mem_cons] at respects
      refine ⟨assign eval value frontier.next [.unit], old _, ?_, standsWord' _⟩
      simp [Combinator.map, Combinator.mapMem, ruleEquations, Equation.bind, Equation.Holds,
        Frame.Fits, (standsOwn _).2, evaluates.unit, respects]
  | injl child =>
      have stands := @standsChild child (.head _)
      simp only [ruleConstraints, List.forall_mem_cons] at respects
      refine ⟨assign eval value frontier.next [.inner index 0, .sum (.target child) (.inner index 0)],
        old _, ?_, standsWord' _⟩
      simp [Combinator.map, Combinator.mapMem, ruleEquations, Equation.bind, Equation.Holds,
        Frame.Fits, (standsOwn _).1, (standsOwn _).2, (stands _).1, (stands _).2, evaluates.sum,
        respects]
  | injr child =>
      have stands := @standsChild child (.head _)
      simp only [ruleConstraints, List.forall_mem_cons] at respects
      refine ⟨assign eval value frontier.next [.inner index 0, .sum (.inner index 0) (.target child)],
        old _, ?_, standsWord' _⟩
      simp [Combinator.map, Combinator.mapMem, ruleEquations, Equation.bind, Equation.Holds,
        Frame.Fits, (standsOwn _).1, (standsOwn _).2, (stands _).1, (stands _).2, evaluates.sum,
        respects]
  | take child =>
      have stands := @standsChild child (.head _)
      simp only [ruleConstraints, List.forall_mem_cons] at respects
      refine ⟨assign eval value frontier.next
        [.inner index 0, .prod (.source child) (.inner index 0)], old _, ?_, standsWord' _⟩
      simp [Combinator.map, Combinator.mapMem, ruleEquations, Equation.bind, Equation.Holds,
        Frame.Fits, (standsOwn _).1, (standsOwn _).2, (stands _).1, (stands _).2, evaluates.prod,
        respects]
  | drop child =>
      have stands := @standsChild child (.head _)
      simp only [ruleConstraints, List.forall_mem_cons] at respects
      refine ⟨assign eval value frontier.next
        [.inner index 0, .prod (.inner index 0) (.source child)], old _, ?_, standsWord' _⟩
      simp [Combinator.map, Combinator.mapMem, ruleEquations, Equation.bind, Equation.Holds,
        Frame.Fits, (standsOwn _).1, (standsOwn _).2, (stands _).1, (stands _).2, evaluates.prod,
        respects]
  | comp left right =>
      have standsLeft := @standsChild left (.head _)
      have standsRight := @standsChild right (.tail _ (.head _))
      simp only [ruleConstraints, List.forall_mem_cons] at respects
      refine ⟨assign eval value frontier.next [], old _, ?_, standsWord' _⟩
      simp [Combinator.map, Combinator.mapMem, ruleEquations, Equation.Holds, (standsOwn _).1,
        (standsOwn _).2, (standsLeft _).1, (standsLeft _).2, (standsRight _).1, (standsRight _).2,
        respects]
  | pair left right =>
      have standsLeft := @standsChild left (.head _)
      have standsRight := @standsChild right (.tail _ (.head _))
      simp only [ruleConstraints, List.forall_mem_cons] at respects
      refine ⟨assign eval value frontier.next [.prod (.target left) (.target right)], old _, ?_,
        standsWord' _⟩
      simp [Combinator.map, Combinator.mapMem, ruleEquations, Equation.bind, Equation.Holds,
        Frame.Fits, (standsOwn _).1, (standsOwn _).2, (standsLeft _).1, (standsLeft _).2,
        (standsRight _).1, (standsRight _).2, evaluates.prod, ← respects.1, ← respects.2.1,
        respects.2.2.1]
  | case left right =>
      have standsLeft := @standsChild left (.head _)
      have standsRight := @standsChild right (.tail _ (.head _))
      simp only [ruleConstraints, choiceConstraint, branchConstraints, List.cons_append,
        List.nil_append, List.forall_mem_cons] at respects
      refine ⟨assign eval value frontier.next [.inner index 0, .inner index 1, .inner index 2,
        .sum (.inner index 0) (.inner index 1),
        .prod (.sum (.inner index 0) (.inner index 1)) (.inner index 2),
        .prod (.inner index 0) (.inner index 2), .prod (.inner index 1) (.inner index 2)], old _, ?_,
        standsWord' _⟩
      simp [Combinator.map, Combinator.mapMem, ruleEquations, choiceEquations, branchEquations,
        Equation.bind, Equation.Holds, Frame.Fits, (standsOwn _).1, (standsOwn _).2,
        (standsLeft _).1, (standsLeft _).2, (standsRight _).1, (standsRight _).2, evaluates.sum,
        evaluates.prod, respects.1, respects.2.1, ← respects.2.2.1, respects.2.2.2.1,
        ← respects.2.2.2.2.1]
  | assertl left right =>
      have stands := @standsChild left (.head _)
      simp only [ruleConstraints, choiceConstraint, branchConstraints,
        List.forall_mem_cons] at respects
      refine ⟨assign eval value frontier.next [.inner index 0, .inner index 1, .inner index 2,
        .sum (.inner index 0) (.inner index 1),
        .prod (.sum (.inner index 0) (.inner index 1)) (.inner index 2),
        .prod (.inner index 0) (.inner index 2)], old _, ?_, standsWord' _⟩
      simp [Combinator.map, Combinator.mapMem, ruleEquations, choiceEquations, branchEquations,
        Equation.bind, Equation.Holds, Frame.Fits, (standsOwn _).1, (standsOwn _).2, (stands _).1,
        (stands _).2, evaluates.sum, evaluates.prod, respects]
  | assertr left right =>
      have stands := @standsChild right (.tail _ (.head _))
      simp only [ruleConstraints, choiceConstraint, branchConstraints,
        List.forall_mem_cons] at respects
      refine ⟨assign eval value frontier.next [.inner index 0, .inner index 1, .inner index 2,
        .sum (.inner index 0) (.inner index 1),
        .prod (.sum (.inner index 0) (.inner index 1)) (.inner index 2),
        .prod (.inner index 1) (.inner index 2)], old _, ?_, standsWord' _⟩
      simp [Combinator.map, Combinator.mapMem, ruleEquations, choiceEquations, branchEquations,
        Equation.bind, Equation.Holds, Frame.Fits, (standsOwn _).1, (standsOwn _).2, (stands _).1,
        (stands _).2, evaluates.sum, evaluates.prod, respects]
  | disconnect left right =>
      have leftStands := childStands left (.head _)
      have rightStands := childStands right (.tail _ (.head _))
      have leftWithin := childrenWithin left (.head _)
      have rightWithin := childrenWithin right (.tail _ (.head _))
      simp only [Combinator.map, Combinator.mapMem, ruleEquations]
      split
      case h_1 word known =>
        rcases exists_satisfies_disconnect evaluates respects ownWithin leftWithin rightWithin
            (valid word known) (standsWord word known) ownStands leftStands rightStands with
          ⟨value', agree, satisfies⟩
        exact ⟨value', agree, satisfies, standsWord.congr valid agree⟩
      case h_2 =>
        -- First the variables of words are assigned, and then those of the rule.
        rcases exists_satisfies_words evaluates value frontier.next with
          ⟨words, oldWords, satisfiesWords, isWord⟩
        have grows : frontier.next ≤ frontier.next + 10 := Nat.le_add_right _ _
        rcases exists_satisfies_disconnect evaluates respects (ownWithin.mono grows)
            (leftWithin.mono grows) (rightWithin.mono grows) (Nat.lt_succ_self _) isWord
            (ownStands.congr ownWithin oldWords) (leftStands.congr leftWithin oldWords)
            (rightStands.congr rightWithin oldWords) with ⟨value', agree, satisfies⟩
        refine ⟨value', ?_, satisfies_append.mpr ⟨?_, satisfies⟩, ?_⟩
        · intro var inside
          exact (agree var (Nat.lt_of_lt_of_le inside grows)).trans (oldWords var inside)
        · rw [satisfies_congr (wordEquations_within (Nat.le_refl _)) agree]
          exact satisfiesWords
        · intro word known
          cases known
          exact (agree _ (Nat.lt_succ_self _)).trans isWord
  | witness => exact ⟨value, fun _ _ => rfl, satisfies_nil, standsWord⟩
  | hidden root => exact ⟨value, fun _ _ => rfl, satisfies_nil, standsWord⟩

end Assignment

section Trees

variable {value : Var → Tree} {unknowns : Unknown → Tree}

theorem tree_of_doublings {times level word : Nat}
    (satisfies : Frame.trees.Satisfies value (doublings times word (word + 1)))
    (start : value word = Tree.ofTy (.word level)) :
    value (word + times) = Tree.ofTy (.word (level + times)) := by
  induction times generalizing level word with
  | zero => exact start
  | succ times ih =>
      rw [doublings, satisfies_cons] at satisfies
      have doubled : value (word + 1) = Tree.ofTy (.word (level + 1)) := by
        have isProd : value (word + 1) = .node .prod (value word) (value word) := satisfies.1
        rw [isProd, start]
        rfl
      have grown := ih satisfies.2 doubled
      rwa [show word + 1 + times = word + (times + 1) by omega,
        show level + 1 + times = level + (times + 1) by omega] at grown

theorem tree_of_wordEquations {next : Nat}
    (satisfies : Frame.trees.Satisfies value (wordEquations next)) :
    value (next + 9) = Tree.ofTy .word256 := by
  simp only [wordEquations, satisfies_cons] at satisfies
  rcases satisfies with ⟨isUnit, isBit, doubles⟩
  have bit : value (next + 1) = Tree.ofTy (.word 0) := by
    have isUnit : value next = .unit := isUnit
    have isBit : value (next + 1) = .node .sum (value next) (value next) := isBit
    rw [isBit, isUnit]
    rfl
  exact tree_of_doublings doubles bit

/-- The variable of 256-bit words, once there is one, is assigned the tree of their type. -/
def WordTree (value : Var → Tree) (frontier : Frontier) : Prop :=
  ∀ word, frontier.word = some word → value word = Tree.ofTy .word256

theorem WordTree.ruleEquations {own : Ends} {frontier : Frontier} {node : Combinator Ends}
    (isWord : WordTree value frontier)
    (satisfies : Frame.trees.Satisfies value (Typing.ruleEquations own frontier node).1) :
    WordTree value (Typing.ruleEquations own frontier node).2 := by
  cases node with
  | disconnect left right =>
      simp only [Typing.ruleEquations] at satisfies ⊢
      split
      case h_1 => exact isWord
      case h_2 none =>
        simp only [none, satisfies_append] at satisfies
        intro word known
        cases known
        exact tree_of_wordEquations satisfies.1
  | _ => exact isWord

/-- Where the equations of a node are satisfied by trees, its constraints hold, whatever trees the
other unknowns stand for. -/
theorem exists_respects_of_satisfies {index : Nat} {own : Ends} {frontier : Frontier} {node : Node}
    {ends : Nat → Ends} (isWord : WordTree value frontier)
    (satisfies : Frame.trees.Satisfies value (ruleEquations own frontier (node.map ends)).1) :
    ∃ inner : Nat → Tree, ∀ unknowns, Stands (Tree.eval unknowns) value index own →
      (∀ child, Stands (Tree.eval unknowns) value child (ends child)) →
      (∀ place, Tree.eval unknowns (.inner index place) = inner place) →
        ∀ constraint ∈ ruleConstraints index node,
          Tree.eval unknowns constraint.1 = Tree.eval unknowns constraint.2 := by
  cases node with
  | disconnect left right =>
      obtain ⟨word, next, isWord, delegates⟩ : ∃ word next, value word = Tree.ofTy .word256 ∧
          Frame.trees.Satisfies value
            (disconnectEquations own word next (ends left) (ends right)) := by
        simp only [Combinator.map, Combinator.mapMem, ruleEquations] at satisfies
        split at satisfies
        case h_1 word known => exact ⟨word, frontier.next, isWord word known, satisfies⟩
        case h_2 =>
          rw [satisfies_append] at satisfies
          exact ⟨_, _, tree_of_wordEquations satisfies.1, satisfies.2⟩
      refine ⟨fun place => value (next + 1 + place), ?_⟩
      intro unknowns standsOwn stands isInner
      simp only [disconnectEquations, Equation.bind, satisfies_append, satisfies_cons, satisfies_nil,
        Equation.Holds, Frame.fits_trees_prod, and_true] at delegates
      simp [ruleConstraints, Tree.eval, Tree.eval_ofTy, ← standsOwn.1, ← standsOwn.2,
        ← (stands _).1, ← (stands _).2, isInner, delegates, isWord]
  | pair left right =>
      refine ⟨fun place => value (frontier.next + place), ?_⟩
      intro unknowns standsOwn stands isInner
      simp only [Combinator.map, Combinator.mapMem, ruleEquations, Equation.bind, satisfies_cons,
        satisfies_nil, Equation.Holds, Frame.fits_trees_prod, and_true] at satisfies
      simp [ruleConstraints, Tree.eval, ← standsOwn.1, ← standsOwn.2, ← (stands _).1,
        ← (stands _).2, ← satisfies.1, ← satisfies.2.1, satisfies.2.2]
  | case left right =>
      refine ⟨fun place => value (frontier.next + place), ?_⟩
      intro unknowns standsOwn stands isInner
      simp only [Combinator.map, Combinator.mapMem, ruleEquations, choiceEquations, branchEquations,
        Equation.bind, satisfies_append, satisfies_cons, satisfies_nil, Equation.Holds,
        Frame.fits_trees_sum, Frame.fits_trees_prod, and_true] at satisfies
      rcases satisfies with ⟨isSource, ⟨isLeft, sameLeft⟩, isRight, sameRight⟩
      simp [ruleConstraints, choiceConstraint, branchConstraints, Tree.eval, ← standsOwn.1,
        ← standsOwn.2, ← (stands _).1, ← (stands _).2, isInner, isSource, isLeft, isRight, ← sameLeft,
        ← sameRight]
  | _ =>
      refine ⟨fun place => value (frontier.next + place), ?_⟩
      intro unknowns standsOwn stands isInner
      simp only [Combinator.map, Combinator.mapMem, ruleEquations, choiceEquations, branchEquations,
        Equation.bind, satisfies_append, satisfies_cons, satisfies_nil, Equation.Holds,
        Frame.fits_trees_unit, Frame.fits_trees_sum, Frame.fits_trees_prod, and_true] at satisfies
      simp [ruleConstraints, choiceConstraint, branchConstraints, Tree.eval, ← standsOwn.1,
        ← standsOwn.2, ← (stands _).1, ← (stands _).2, isInner, satisfies]

end Trees

namespace Layout

/-- The next node is given its variables and those of its rule. -/
theorem exists_satisfies_add_of_respects (evaluates : frame.Evaluates eval) {nodes : List Node}
    {node : Node} (backward : Backward (nodes ++ [node]))
    (respects : ∀ constraint ∈ ruleConstraints nodes.length node,
      eval constraint.1 = eval constraint.2)
    (satisfies : frame.Satisfies value (ofNodes nodes).equations)
    (standsWord : StandsWord eval value (ofNodes nodes).frontier)
    (stands : ∀ index < nodes.length, Stands eval value index ((ofNodes nodes).endsAt index)) :
    ∃ value', frame.Satisfies value' ((ofNodes nodes).add node).equations ∧
      StandsWord eval value' ((ofNodes nodes).add node).frontier ∧
      ∀ index < nodes.length + 1,
        Stands eval value' index (((ofNodes nodes).add node).endsAt index) := by
  have valid := valid_ofNodes nodes
  -- First the ends of the node are assigned, and then the variables of its rule.
  let middle := assign eval value (ofNodes nodes).frontier.next
    [.source nodes.length, .target nodes.length]
  have oldMiddle : ∀ var < (ofNodes nodes).frontier.next, middle var = value var :=
    fun _ inside => assign_old inside
  have ownStands : Stands eval middle nodes.length (ofNodes nodes).own := by
    simp [Stands, own, middle]
  have standsMiddle : ∀ index < nodes.length + 1,
      Stands eval middle index (((ofNodes nodes).add node).endsAt index) := by
    intro index inside
    rcases Nat.lt_succ_iff_lt_or_eq.mp inside with earlier | rfl
    · have insideEnds : index < (ofNodes nodes).ends.size := by rwa [size_ends_ofNodes]
      rw [endsAt_add_of_lt insideEnds]
      exact (stands index earlier).congr (endsAt_within valid insideEnds) oldMiddle
    · have isOwn : ((ofNodes nodes).add node).endsAt nodes.length = (ofNodes nodes).own := by
        rw [← size_ends_ofNodes nodes, endsAt_add_self]
      rw [isOwn]
      exact ownStands
  have children : ∀ child ∈ node.children,
      Stands eval middle child (((ofNodes nodes).add node).endsAt child) := by
    intro child member
    exact standsMiddle child
      (Nat.lt_succ_of_le (backward nodes.length node (by simp) child member))
  rcases exists_satisfies_of_respects evaluates respects (Frontier.Valid.skip valid.word 2)
      (ofNodes nodes).own_within (fun child _ => valid.ends_within child)
      (standsWord.congr valid.word oldMiddle) ownStands children with
    ⟨value', agree, satisfiesRule, standsWord'⟩
  have agree' : ∀ var < (ofNodes nodes).frontier.next, value' var = value var := by
    intro var inside
    exact (agree var (Nat.lt_add_right 2 inside)).trans (oldMiddle var inside)
  refine ⟨value', ?_, standsWord', ?_⟩
  · rw [equations_add, satisfies_append]
    exact ⟨(satisfies_congr valid.equations agree').mpr satisfies, satisfiesRule⟩
  · intro index inside
    exact (standsMiddle index inside).congr (valid.ends_within index) agree

/-- Where the constraints of all nodes hold, the variables of all equations can be assigned. -/
theorem exists_satisfies_of_respects (evaluates : frame.Evaluates eval) {nodes : List Node}
    (backward : Backward nodes)
    (respects : ∀ index node, nodes[index]? = some node →
      ∀ constraint ∈ ruleConstraints index node, eval constraint.1 = eval constraint.2) :
    ∃ value, frame.Satisfies value (ofNodes nodes).equations ∧
      StandsWord eval value (ofNodes nodes).frontier ∧
      ∀ index < nodes.length, Stands eval value index ((ofNodes nodes).endsAt index) := by
  induction nodes using List.reverseRecOn with
  | nil =>
      refine ⟨fun _ => eval .unit, satisfies_nil, ?_, by simp⟩
      intro word isWord
      cases isWord
  | append_singleton nodes last ih =>
      obtain ⟨value, satisfies, standsWord, stands⟩ := ih backward.of_append
        fun index node found => respects index node (getElem?_append_of_some found)
      rw [ofNodes_append_singleton, List.length_append, List.length_singleton]
      exact exists_satisfies_add_of_respects evaluates backward
        (respects nodes.length last (by simp)) satisfies standsWord stands

/-- Where the constraints of all nodes and of the root hold, the variables of all equations can be
assigned. -/
theorem exists_satisfies_close_of_respects (evaluates : frame.Evaluates eval) {nodes : List Node}
    (nonempty : 0 < nodes.length) (backward : Backward nodes)
    (respects : ∀ index node, nodes[index]? = some node →
      ∀ constraint ∈ ruleConstraints index node, eval constraint.1 = eval constraint.2)
    (respectsRoot : ∀ constraint ∈ rootConstraints (nodes.length - 1),
      eval constraint.1 = eval constraint.2) :
    ∃ value, frame.Satisfies value (ofNodes nodes).close.equations ∧
      ∀ index < nodes.length, Stands eval value index ((ofNodes nodes).endsAt index) := by
  have valid := valid_ofNodes nodes
  obtain ⟨value, satisfies, -, stands⟩ := exists_satisfies_of_respects evaluates backward respects
  have within : ∀ index < nodes.length,
      ((ofNodes nodes).endsAt index).Within (ofNodes nodes).frontier.next := by
    intro index inside
    exact endsAt_within valid (by rwa [size_ends_ofNodes])
  have rootWithin := within (nodes.length - 1) (by omega)
  have rootStands := stands (nodes.length - 1) (by omega)
  have old : ∀ var < (ofNodes nodes).frontier.next,
      assign eval value (ofNodes nodes).frontier.next [.unit, .unit] var = value var :=
    fun _ inside => assign_old inside
  simp only [rootConstraints, List.forall_mem_cons] at respectsRoot
  refine ⟨assign eval value (ofNodes nodes).frontier.next [.unit, .unit], ?_, ?_⟩
  · rw [close_eq nonempty]
    simp only [satisfies_append]
    refine ⟨(satisfies_congr valid.equations old).mpr satisfies, ?_, ?_⟩
    · simp [Equation.bind, Equation.Holds, Frame.Fits, assign_old rootWithin.1, rootStands.1,
        evaluates.unit, respectsRoot]
    · simp [Equation.bind, Equation.Holds, Frame.Fits, assign_old rootWithin.2, rootStands.2,
        evaluates.unit, respectsRoot]
  · intro index inside
    exact (stands index inside).congr (within index inside) old

/-- Where the equations of all nodes are satisfied by trees, the constraints of all nodes hold. -/
theorem exists_respects_of_satisfies {value : Var → Tree} {nodes : List Node}
    (backward : Backward nodes)
    (satisfies : Frame.trees.Satisfies value (ofNodes nodes).equations) :
    ∃ unknowns, (∀ index, Stands (Tree.eval unknowns) value index ((ofNodes nodes).endsAt index)) ∧
      ∀ index node, nodes[index]? = some node → ∀ constraint ∈ ruleConstraints index node,
        Tree.eval unknowns constraint.1 = Tree.eval unknowns constraint.2 := by
  have start : WordTree value empty.frontier := by
    intro word isWord
    cases isWord
  have rules := (rules_of_satisfies start
    (fun _ _ _ isWord holds => WordTree.ruleEquations isWord holds) backward satisfies).2
  have chosen : ∀ index, ∃ inner : Nat → Tree, ∀ node, nodes[index]? = some node → ∀ unknowns,
      (∀ index, Stands (Tree.eval unknowns) value index ((ofNodes nodes).endsAt index)) →
      (∀ place, Tree.eval unknowns (.inner index place) = inner place) →
        ∀ constraint ∈ ruleConstraints index node,
          Tree.eval unknowns constraint.1 = Tree.eval unknowns constraint.2 := by
    intro index
    cases found : nodes[index]? with
    | none => exact ⟨fun _ => .unit, by simp⟩
    | some node =>
        rcases rules index node found with ⟨frontier, isWord, holds⟩
        have isWord : WordTree value (frontier.skip 2) := isWord
        rcases Typing.exists_respects_of_satisfies isWord holds with ⟨inner, respects⟩
        refine ⟨inner, ?_⟩
        intro node' same unknowns stands isInner
        cases same
        exact respects unknowns (stands index) stands isInner
  choose inner respects using chosen
  let unknowns : Unknown → Tree
    | .source index => value ((ofNodes nodes).endsAt index).source
    | .target index => value ((ofNodes nodes).endsAt index).target
    | .inner index place => inner index place
  have stands : ∀ index,
      Stands (Tree.eval unknowns) value index ((ofNodes nodes).endsAt index) :=
    fun _ => ⟨rfl, rfl⟩
  exact ⟨unknowns, stands, fun index node found =>
    respects index node found unknowns stands fun _ => rfl⟩

end Layout

end Simplicity.Typing
