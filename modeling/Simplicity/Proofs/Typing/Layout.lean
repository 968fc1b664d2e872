import Simplicity.Proofs.Typing.Rule

/-!
# Typings and equations of lists of nodes

The equations of a list of nodes, taken together, say that the list is well typed. In one direction
this holds node by node, since the variables of a node never change once it has them. In the other
direction the assignment grows with the list: the arrow of the next node is assigned to its ends, and
the variables of its rule are assigned what the rule says.
-/

namespace Simplicity.Typing

/-- The children of each node come before it, or are the node itself. -/
def Backward (nodes : List Node) : Prop :=
  ∀ index (node : Node), nodes[index]? = some node → ∀ child ∈ node.children, child ≤ index

theorem getElem?_append_of_some {nodes : List Node} {last node : Node} {index : Nat}
    (found : nodes[index]? = some node) : (nodes ++ [last])[index]? = some node := by
  rw [List.getElem?_append_left (List.getElem?_eq_some_iff.mp found).1]
  exact found

theorem Backward.of_append {nodes : List Node} {last : Node} (backward : Backward (nodes ++ [last])) :
    Backward nodes := by
  intro index node found
  exact backward index node (getElem?_append_of_some found)

theorem getElem?_append_singleton {nodes : List Node} {last node : Node} {index : Nat}
    (found : (nodes ++ [last])[index]? = some node) :
    nodes[index]? = some node ∨ index = nodes.length ∧ node = last := by
  rcases Nat.lt_trichotomy index nodes.length with old | isLast | past
  · left
    rwa [List.getElem?_append_left old] at found
  · right
    subst isLast
    simpa using found.symm
  · rw [List.getElem?_eq_none (by simp; omega)] at found
    cases found

namespace Layout

/-- The variables of the node at an index. -/
def endsAt (layout : Layout) (index : Nat) : Ends :=
  layout.ends.getD index default

variable {layout : Layout} {node : Node} {index : Nat}

theorem endsAt_add_of_lt (old : index < layout.ends.size) :
    (layout.add node).endsAt index = layout.endsAt index := by
  simp [endsAt, add, Array.getD_eq_getD_getElem?, Array.getElem?_push, Nat.ne_of_lt old]

theorem endsAt_add_self : (layout.add node).endsAt layout.ends.size = layout.own := by
  simp [endsAt, add, Array.getD_eq_getD_getElem?]

theorem endsAt_within (valid : layout.Valid) (inside : index < layout.ends.size) :
    (layout.endsAt index).Within layout.frontier.next := by
  apply valid.ends
  simp [endsAt, Array.getD_eq_getD_getElem?, inside]

theorem ends_close (layout : Layout) : layout.close.ends = layout.ends := by
  unfold close
  split <;> rfl

@[simp]
theorem endsAt_close : layout.close.endsAt index = layout.endsAt index := by
  rw [endsAt, ends_close, endsAt]

theorem equations_add : (layout.add node).equations = layout.equations ++
    (ruleEquations layout.own (layout.frontier.skip 2) (node.map (layout.add node).endsAt)).1 :=
  rfl

theorem frontier_add : (layout.add node).frontier =
    (ruleEquations layout.own (layout.frontier.skip 2) (node.map (layout.add node).endsAt)).2 :=
  rfl

section Reading

variable {T : Type} (frame : Frame T) (value : Var → T)

/-- Wherever the variable of 256-bit words can be read as a type, it is read as their type. -/
def KnowsWord (frontier : Frontier) : Prop :=
  ∀ word, frontier.word = some word → ∀ {Reads : T → Ty → Prop}, frame.Reading Reads →
    ∀ {ty}, Reads (value word) ty → ty = .word256

/-- An assignment satisfies the equations of the rule of a node. -/
def RuleHolds (layout : Layout) (index : Nat) (node : Node) : Prop :=
  ∃ frontier, KnowsWord frame value frontier ∧
    frame.Satisfies value (ruleEquations (layout.endsAt index) frontier (node.map layout.endsAt)).1

variable {frame value}

theorem KnowsWord.ruleEquations {own : Ends} {frontier : Frontier} {node : Combinator Ends}
    (knows : KnowsWord frame value frontier)
    (satisfies : frame.Satisfies value (ruleEquations own frontier node).1) :
    KnowsWord frame value (ruleEquations own frontier node).2 := by
  cases node with
  | disconnect left right =>
      simp only [Typing.ruleEquations] at satisfies ⊢
      split
      case h_1 => exact knows
      case h_2 none =>
        simp only [none, satisfies_append] at satisfies
        intro word isWord Reads reading ty reads
        cases isWord
        exact reads_wordEquations reading satisfies.1 reads
  | _ => exact knows

/-- An assignment that satisfies all equations satisfies those of each node. What is known of the
variable of words before the first node is known at each, if the equations of a rule keep it. -/
theorem rules_of_satisfies {Knows : Frontier → Prop} (start : Knows empty.frontier)
    (keeps : ∀ own frontier node, Knows frontier →
      frame.Satisfies value (Typing.ruleEquations own (frontier.skip 2) node).1 →
        Knows (Typing.ruleEquations own (frontier.skip 2) node).2)
    {nodes : List Node} (backward : Backward nodes)
    (satisfies : frame.Satisfies value (ofNodes nodes).equations) :
    Knows (ofNodes nodes).frontier ∧ ∀ index node, nodes[index]? = some node →
      ∃ frontier, Knows frontier ∧ frame.Satisfies value
        (Typing.ruleEquations ((ofNodes nodes).endsAt index) (frontier.skip 2)
          (node.map (ofNodes nodes).endsAt)).1 := by
  induction nodes using List.reverseRecOn with
  | nil => exact ⟨start, by simp⟩
  | append_singleton nodes last ih =>
      rw [ofNodes_append_singleton] at satisfies ⊢
      rw [equations_add, satisfies_append] at satisfies
      rcases ih backward.of_append satisfies.1 with ⟨knows, rules⟩
      refine ⟨?_, ?_⟩
      · rw [frontier_add]
        exact keeps _ _ _ knows satisfies.2
      · intro index node found
        rcases getElem?_append_singleton found with old | ⟨rfl, rfl⟩
        · rcases rules index node old with ⟨frontier, knowsWord, holds⟩
          have inside := (List.getElem?_eq_some_iff.mp old).1
          have agree : ∀ other ≤ index,
              ((ofNodes nodes).add last).endsAt other = (ofNodes nodes).endsAt other := by
            intro other le
            apply endsAt_add_of_lt
            rw [size_ends_ofNodes]
            omega
          refine ⟨frontier, knowsWord, ?_⟩
          rw [agree index (Nat.le_refl _),
            Combinator.map_congr fun child member =>
              agree child (backward.of_append index node old child member)]
          exact holds
        · refine ⟨(ofNodes nodes).frontier, knows, ?_⟩
          rw [← size_ends_ofNodes, endsAt_add_self]
          exact satisfies.2

theorem ruleHolds_of_satisfies {nodes : List Node} (backward : Backward nodes)
    (satisfies : frame.Satisfies value (ofNodes nodes).equations) :
    KnowsWord frame value (ofNodes nodes).frontier ∧ ∀ index node, nodes[index]? = some node →
      RuleHolds frame value (ofNodes nodes) index node := by
  have start : KnowsWord frame value empty.frontier := by
    intro word isWord
    cases isWord
  rcases rules_of_satisfies start (fun _ _ _ knows holds => KnowsWord.ruleEquations knows holds)
      backward satisfies with ⟨knows, rules⟩
  refine ⟨knows, ?_⟩
  intro index node found
  rcases rules index node found with ⟨frontier, knowsWord, holds⟩
  exact ⟨frontier.skip 2, knowsWord, holds⟩

end Reading

theorem ruleEquations_of_isHidden {own : Ends} {frontier : Frontier} {ends : Nat → Ends}
    (isHidden : node.isHidden = true) : (ruleEquations own frontier (node.map ends)).1 = [] := by
  cases node <;> simp only [Combinator.isHidden, Bool.false_eq_true] at isHidden
  rfl

/-- The next node has an arrow that follows its rule, so an assignment can be extended to its
variables. -/
theorem exists_satisfies_add {nodes : List Node} {arrows : Nat → Option Arrow} {value : Var → Ty}
    (backward : Backward (nodes ++ [node]))
    (satisfies : Frame.types.Satisfies value (ofNodes nodes).equations)
    (reads : ∀ index < nodes.length, ∀ arrow, arrows index = some arrow →
      ReadsArrow (· = ·) value ((ofNodes nodes).endsAt index) arrow)
    {arrow : Arrow} (found : arrows nodes.length = some arrow)
    (typed : (node.map arrows).HasType arrow) :
    ∃ value', (∀ var < (ofNodes nodes).frontier.next, value' var = value var) ∧
      Frame.types.Satisfies value' ((ofNodes nodes).add node).equations ∧
      ReadsArrow (· = ·) value' (ofNodes nodes).own arrow := by
  have valid := valid_ofNodes nodes
  -- First the ends of the node are assigned its arrow, and then the variables of its rule.
  obtain ⟨middle, oldMiddle, ownArrow⟩ : ∃ middle : Var → Ty,
      (∀ var < (ofNodes nodes).frontier.next, middle var = value var) ∧
        ReadsArrow (· = ·) middle (ofNodes nodes).own arrow := by
    refine ⟨extend value (ofNodes nodes).frontier.next [arrow.source, arrow.target],
      fun _ inside => extend_old inside, ?_⟩
    simp [ReadsArrow, own]
  have satisfiesMiddle : Frame.types.Satisfies middle (ofNodes nodes).equations :=
    (satisfies_congr valid.equations oldMiddle).mpr satisfies
  have knowsWord := (ruleHolds_of_satisfies backward.of_append satisfiesMiddle).1
  have childArrow : ∀ child ∈ node.children, ∀ arrow, arrows child = some arrow →
      ReadsArrow (· = ·) middle (((ofNodes nodes).add node).endsAt child) arrow := by
    intro child member childArrow foundChild
    have le : child ≤ nodes.length := backward nodes.length node (by simp) child member
    rcases Nat.lt_or_eq_of_le le with earlier | itself
    · have inside : child < (ofNodes nodes).ends.size := by rw [size_ends_ofNodes]; exact earlier
      rw [endsAt_add_of_lt inside]
      exact readsArrow_congr oldMiddle (endsAt_within valid inside)
        (reads child earlier childArrow foundChild)
    · rw [itself, found] at foundChild
      cases foundChild
      rw [itself, ← size_ends_ofNodes, endsAt_add_self]
      exact ownArrow
  obtain ⟨value', old, satisfiesRule⟩ := exists_satisfies_of_hasType typed
    (Frontier.Valid.skip valid.word 2) (ofNodes nodes).own_within
    (fun child _ => valid.ends_within child)
    (fun word isWord => knowsWord word isWord Frame.types_reading rfl) ownArrow childArrow
  have old' : ∀ var < (ofNodes nodes).frontier.next, value' var = middle var :=
    fun var inside => old var (Nat.lt_of_lt_of_le inside (Nat.le_add_right _ 2))
  refine ⟨value', ?_, ?_, readsArrow_congr old (ofNodes nodes).own_within ownArrow⟩
  · intro var inside
    exact (old' var inside).trans (oldMiddle var inside)
  · rw [equations_add, satisfies_append]
    exact ⟨(satisfies_congr valid.equations old').mpr satisfiesMiddle, satisfiesRule⟩

/-- Arrows that follow the rules of all nodes can be extended to all variables. -/
theorem exists_satisfies {nodes : List Node} {arrows : Nat → Option Arrow}
    (backward : Backward nodes)
    (hidden : ∀ index node, nodes[index]? = some node → arrows index = none → node.isHidden = true)
    (typed : ∀ index (node : Node), nodes[index]? = some node →
      ∀ arrow, arrows index = some arrow → (node.map arrows).HasType arrow) :
    ∃ value, Frame.types.Satisfies value (ofNodes nodes).equations ∧
      ∀ index < nodes.length, ∀ arrow, arrows index = some arrow →
        ReadsArrow (· = ·) value ((ofNodes nodes).endsAt index) arrow := by
  induction nodes using List.reverseRecOn with
  | nil => exact ⟨fun _ => .unit, satisfies_nil, by simp⟩
  | append_singleton nodes last ih =>
      have valid := valid_ofNodes nodes
      have isLast : (nodes ++ [last])[nodes.length]? = some last := by simp
      obtain ⟨value, satisfies, reads⟩ := ih backward.of_append
        (fun index node found => hidden index node (getElem?_append_of_some found))
        (fun index node found => typed index node (getElem?_append_of_some found))
      rw [ofNodes_append_singleton]
      have readsOld : ∀ {value'}, (∀ var < (ofNodes nodes).frontier.next, value' var = value var) →
          ∀ index < nodes.length, ∀ arrow, arrows index = some arrow →
            ReadsArrow (· = ·) value' (((ofNodes nodes).add last).endsAt index) arrow := by
        intro value' old index inside arrow found
        have insideEnds : index < (ofNodes nodes).ends.size := by
          rw [size_ends_ofNodes]
          exact inside
        rw [endsAt_add_of_lt insideEnds]
        exact readsArrow_congr old (endsAt_within valid insideEnds) (reads index inside arrow found)
      cases found : arrows nodes.length with
      | none =>
          refine ⟨value, ?_, ?_⟩
          · rw [equations_add, ruleEquations_of_isHidden (hidden _ _ isLast found),
              List.append_nil]
            exact satisfies
          · intro index inside arrow foundArrow
            rw [List.length_append, List.length_singleton] at inside
            rcases Nat.lt_succ_iff_lt_or_eq.mp inside with old | rfl
            · exact readsOld (fun _ _ => rfl) index old arrow foundArrow
            · rw [found] at foundArrow
              cases foundArrow
      | some lastArrow =>
          rcases exists_satisfies_add backward satisfies reads
              found (typed _ _ isLast lastArrow found) with ⟨value', old, satisfies', ownArrow⟩
          refine ⟨value', satisfies', ?_⟩
          intro index inside arrow foundArrow
          rw [List.length_append, List.length_singleton] at inside
          rcases Nat.lt_succ_iff_lt_or_eq.mp inside with earlier | rfl
          · exact readsOld old index earlier arrow foundArrow
          · rw [found] at foundArrow
            cases foundArrow
            rw [← size_ends_ofNodes, endsAt_add_self]
            exact ownArrow

theorem close_eq {nodes : List Node} (nonempty : 0 < nodes.length) :
    (ofNodes nodes).close = ⟨(ofNodes nodes).ends,
      (ofNodes nodes).equations ++
        (Equation.bind ((ofNodes nodes).endsAt (nodes.length - 1)).source .unit
            (ofNodes nodes).frontier.next ++
          Equation.bind ((ofNodes nodes).endsAt (nodes.length - 1)).target .unit
            ((ofNodes nodes).frontier.next + 1)),
      (ofNodes nodes).frontier.skip 2⟩ := by
  have size_eq := size_ends_ofNodes nodes
  have isLast : (ofNodes nodes).ends.back? = some ((ofNodes nodes).endsAt (nodes.length - 1)) := by
    rw [Array.back?, size_eq, endsAt, Array.getD_eq_getD_getElem?,
      Array.getElem?_eq_getElem (by omega)]
    rfl
  rw [close, isLast]

end Layout

section List

variable {nodes : Array Node}

/-- The ends of every node are read as its arrow, and hidden nodes have none. -/
def ReadsAll {T : Type} (Reads : T → Ty → Prop) (value : Var → T) (nodes : Array Node)
    (arrows : Array (Option Arrow)) : Prop :=
  ∀ index node, nodes[index]? = some node →
    node.isHidden = true ∧ arrowAt arrows index = none ∨
      node.isHidden = false ∧ ∃ arrow, arrowAt arrows index = some arrow ∧
        ReadsArrow Reads value ((Layout.ofNodes nodes.toList).endsAt index) arrow

theorem hiddenAt_eq {index : Nat} {node : Node} (found : nodes[index]? = some node) :
    hiddenAt nodes index = node.isHidden := by
  simp [hiddenAt, found]

theorem lt_size_of_arrowAt {arrows : Array (Option Arrow)} {index : Nat} {arrow : Arrow}
    (found : arrowAt arrows index = some arrow) : index < arrows.size := by
  by_contra past
  rw [arrowAt, Array.getD_eq_getD_getElem?, Array.getElem?_eq_none (Nat.not_lt.mp past)] at found
  cases found

theorem backward_toList (dag : Dag) : Backward dag.nodes.toList := by
  intro index node found child member
  rw [Array.getElem?_toList] at found
  rcases Array.getElem?_eq_some_iff.mp found with ⟨inside, rfl⟩
  exact Nat.le_of_lt (dag.backward index inside child member)

/-- What satisfies the equations of a list of nodes and can be read as types is a typing. -/
theorem wellTyped_of_readsAll {dag : Dag} (nonempty : 0 < dag.size)
    (rootVisible : hiddenAt dag.nodes (dag.size - 1) = false) {T : Type} {frame : Frame T}
    {Reads : T → Ty → Prop} (reading : frame.Reading Reads) {value : Var → T}
    (satisfies : frame.Satisfies value (equationsOf dag.nodes)) {arrows : Array (Option Arrow)}
    (size_eq : arrows.size = dag.nodes.size) (reads : ReadsAll Reads value dag.nodes arrows) :
    WellTyped dag.nodes arrows := by
  rw [equationsOf, Layout.close_eq (by simpa [Dag.size] using nonempty)] at satisfies
  simp only [satisfies_append, Array.length_toList] at satisfies
  rcases satisfies with ⟨satisfiesRules, rootSource, rootTarget⟩
  have rules := (Layout.ruleHolds_of_satisfies (backward_toList dag) satisfiesRules).2
  have hidden_eq : ∀ index < dag.nodes.size,
      hiddenAt dag.nodes index = (arrowAt arrows index).isNone := by
    intro index inside
    have found := Array.getElem?_eq_getElem inside
    rw [hiddenAt_eq found]
    rcases reads index _ found with ⟨isHidden, isNone⟩ | ⟨visible, arrow, isSome, -⟩
    · rw [isHidden, isNone]
      rfl
    · rw [visible, isSome]
      rfl
  constructor
  case size_eq => exact size_eq
  case hidden_iff =>
    intro index inside
    rw [hidden_eq index inside, Option.isNone_iff_eq_none]
  case root_eq =>
    have inside : dag.nodes.size - 1 < dag.nodes.size := by
      simp only [Dag.size] at nonempty
      omega
    have found := Array.getElem?_eq_getElem inside
    rcases reads _ _ found with ⟨isHidden, -⟩ | ⟨-, ⟨source, target⟩, isSome, readsRoot⟩
    · rw [Dag.size, hiddenAt_eq found, isHidden] at rootVisible
      cases rootVisible
    · have sourceUnit : source = .unit := reads_bind_unit reading rootSource readsRoot.1
      have targetUnit : target = .unit := reads_bind_unit reading rootTarget readsRoot.2
      rw [Array.back?, size_eq]
      rw [arrowAt, Array.getD_eq_getD_getElem?, sourceUnit, targetUnit] at isSome
      cases last : arrows[dag.nodes.size - 1]? with
      | none => simp [last] at isSome
      | some arrow =>
          rw [last] at isSome
          exact congrArg some isSome
  case rule =>
    intro index inside arrow isSome
    have found := Array.getElem?_eq_getElem inside
    rcases reads index _ found with ⟨-, isNone⟩ | ⟨visible, arrow', isSome', readsOwn⟩
    · rw [isNone] at isSome
      cases isSome
    · rw [isSome'] at isSome
      cases isSome
      obtain ⟨frontier, knowsWord, holds⟩ := rules index dag.nodes[index] (by simp)
      apply hasType_of_satisfies reading holds (fun word isWord => knowsWord word isWord reading)
        readsOwn _ visible
      · rw [← dag.settled index inside]
        apply Combinator.settled_congr
        intro child member
        have earlier := dag.backward index inside child member
        exact (hidden_eq child (Nat.lt_trans earlier inside)).symm
      · intro child childArrow childFound
        have childInside : child < dag.nodes.size := size_eq ▸ lt_size_of_arrowAt childFound
        rcases reads child _ (Array.getElem?_eq_getElem childInside) with
          ⟨-, isNone⟩ | ⟨-, otherArrow, isSome, readsChild⟩
        · rw [isNone] at childFound
          cases childFound
        · rw [isSome] at childFound
          cases childFound
          exact readsChild

/-- A typing of a list of nodes can be extended to all variables of its equations. -/
theorem exists_satisfies_of_wellTyped {dag : Dag} {typing : Array (Option Arrow)}
    (typed : WellTyped dag.nodes typing) :
    ∃ value, Frame.types.Satisfies value (equationsOf dag.nodes) ∧
      ∀ index < dag.nodes.size, ∀ arrow, arrowAt typing index = some arrow →
        ReadsArrow (· = ·) value ((Layout.ofNodes dag.nodes.toList).endsAt index) arrow := by
  have nonempty : 0 < dag.nodes.size := by
    have root_eq := typed.root_eq
    rw [Array.back?, typed.size_eq] at root_eq
    have := (Array.getElem?_eq_some_iff.mp root_eq).1
    have := typed.size_eq
    omega
  have rootArrow : arrowAt typing (dag.nodes.size - 1) = some ⟨.unit, .unit⟩ := by
    have root_eq := typed.root_eq
    rw [Array.back?, typed.size_eq] at root_eq
    rw [arrowAt, Array.getD_eq_getD_getElem?, root_eq]
    rfl
  have valid := Layout.valid_ofNodes dag.nodes.toList
  obtain ⟨value, satisfies, reads⟩ := @Layout.exists_satisfies dag.nodes.toList (arrowAt typing)
    (backward_toList dag)
    (by
      intro index node found isNone
      rw [Array.getElem?_toList] at found
      rw [← hiddenAt_eq found]
      exact (typed.hidden_iff index (Array.getElem?_eq_some_iff.mp found).1).mp isNone)
    (by
      intro index node found arrow isSome
      rw [Array.getElem?_toList] at found
      rcases Array.getElem?_eq_some_iff.mp found with ⟨inside, rfl⟩
      exact typed.rule index inside arrow isSome)
  rw [Array.length_toList] at reads
  have insideEnds : ∀ index < dag.nodes.size,
      index < (Layout.ofNodes dag.nodes.toList).ends.size := by
    intro index inside
    rw [Layout.size_ends_ofNodes, Array.length_toList]
    exact inside
  have rootInside : dag.nodes.size - 1 < dag.nodes.size := by omega
  have rootWithin := Layout.endsAt_within valid (insideEnds _ rootInside)
  have readsRoot := reads _ rootInside _ rootArrow
  have old : ∀ var < (Layout.ofNodes dag.nodes.toList).frontier.next,
      extend value (Layout.ofNodes dag.nodes.toList).frontier.next [.unit, .unit] var = value var :=
    fun _ inside => extend_old inside
  refine ⟨extend value (Layout.ofNodes dag.nodes.toList).frontier.next [.unit, .unit], ?_, ?_⟩
  · rw [equationsOf, Layout.close_eq (by simpa using nonempty), Array.length_toList]
    simp only [satisfies_append]
    refine ⟨(satisfies_congr valid.equations old).mpr satisfies, ?_, ?_⟩
    · simp [Equation.bind, Equation.Holds, Frame.Fits, Frame.types, extend_old rootWithin.1,
        readsRoot.1]
    · simp [Equation.bind, Equation.Holds, Frame.Fits, Frame.types, extend_old rootWithin.2,
        readsRoot.2]
  · intro index inside arrow isSome
    exact readsArrow_congr old (Layout.endsAt_within valid (insideEnds index inside))
      (reads index inside arrow isSome)

end List

end Simplicity.Typing
