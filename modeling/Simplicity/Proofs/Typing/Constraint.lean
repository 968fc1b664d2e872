import Simplicity.Proofs.Typing.Equation

/-!
# Imposing typing rules

A step of inference that starts with given variables, whatever is known of them, either fails because
no assignment satisfies the classes and the equations of the step, or leads to classes whose models
are exactly the assignments that do. Steps one after another impose the equations of both, so the
equations of a rule are put together from those of `Solve.var`, `Solve.unify` and `Solve.bind`.
-/

namespace Simplicity.Typing

/-- A solver whose variables have been numbered up to a frontier. -/
structure Solver.At (solver : Solver) (frontier : Frontier) : Prop where
  forest : solver.classes.Forest
  size_eq : solver.classes.size = frontier.next
  word_eq : solver.word = frontier.word

/-- A step narrows the models of the classes down by some equations, or there are none left. -/
def Imposes {α : Type} (node : Nat) (start : Frontier) (step : Solve α) (result : α)
    (stop : Frontier) (equations : List Equation) : Prop :=
  ∀ solver : Solver, solver.At start →
    (∃ solver', step solver = .ok (result, solver') ∧ solver'.At stop ∧
        ∀ {T : Type} (frame : Frame T) (value : Var → T),
          frame.Models value solver'.classes ↔
            frame.Models value solver.classes ∧ frame.Satisfies value equations) ∨
      (∃ left right, step solver = .error (.unify node left right)) ∧
        ∀ {T : Type} (frame : Frame T) (value : Var → T),
          frame.Models value solver.classes → ¬ frame.Satisfies value equations

theorem forall_mem_pair_lt {left right size : Nat} (insideLeft : left < size)
    (insideRight : right < size) : ∀ part ∈ [left, right], part < size := by
  simp [insideLeft, insideRight]

namespace Imposes

variable {α β : Type} {node : Nat} {start middle stop : Frontier}

theorem pure (result : α) : Imposes node start (Pure.pure result) result start [] := by
  intro solver isAt
  refine .inl ⟨solver, rfl, isAt, ?_⟩
  simp

theorem bind {first : Solve α} {second : α → Solve β} {between : α} {result : β}
    {equations more : List Equation} (imposesFirst : Imposes node start first between middle equations)
    (imposesSecond : Imposes node middle (second between) result stop more) :
    Imposes node start (first >>= second) result stop (equations ++ more) := by
  intro solver isAt
  rcases imposesFirst solver isAt with ⟨solver', ran, isAt', models_iff⟩ | ⟨⟨left, right, ran⟩, fails⟩
  · have continues : (first >>= second) solver = second between solver' := by
      change (first solver >>= fun pair => second pair.1 pair.2) = _
      rw [ran]
      rfl
    rw [continues]
    rcases imposesSecond solver' isAt' with ⟨solver'', ran', isAt'', models_iff'⟩ | ⟨ran', fails⟩
    · refine .inl ⟨solver'', ran', isAt'', ?_⟩
      intro T frame value
      rw [models_iff', models_iff, satisfies_append, and_assoc]
    · refine .inr ⟨ran', ?_⟩
      intro T frame value models satisfies
      rw [satisfies_append] at satisfies
      exact fails frame value ((models_iff frame value).mpr ⟨models, satisfies.1⟩) satisfies.2
  · refine .inr ⟨⟨left, right, ?_⟩, ?_⟩
    · change (first solver >>= fun pair => second pair.1 pair.2) = _
      rw [ran]
      rfl
    · intro T frame value models satisfies
      exact fails frame value models (satisfies_append.mp satisfies).1

theorem var {bound : Bound} (parts_lt : ∀ part ∈ bound.parts, part < start.next) :
    Imposes node start (Solve.var bound) start.next (start.skip 1) [.shape start.next bound] := by
  intro solver isAt
  rw [← isAt.size_eq] at parts_lt
  refine .inl ⟨{ solver with classes := solver.classes.push bound }, ?_, ⟨?_, ?_, isAt.word_eq⟩, ?_⟩
  · rw [Solve.var, isAt.size_eq]
  · exact isAt.forest.push parts_lt
  · rw [Classes.Forest.size_push, isAt.size_eq, Frontier.skip]
  · intro T frame value
    rw [Classes.models_push isAt.forest parts_lt, isAt.size_eq]
    simp [Equation.Holds]

theorem fresh : Imposes node start Solve.fresh start.next (start.skip 1) [] := by
  have imposes : Imposes node start Solve.fresh start.next (start.skip 1)
      [.shape start.next .free] :=
    var (by simp [Bound.parts])
  simpa [Imposes, Equation.Holds, Frame.Fits] using imposes

theorem unify {left right : Var} (insideLeft : left < start.next) (insideRight : right < start.next) :
    Imposes node start (Solve.unify left right node) () start [.same left right] := by
  intro solver isAt
  rw [← isAt.size_eq] at insideLeft insideRight
  rcases Classes.unify_spec node isAt.forest insideLeft insideRight with
    ⟨unified, ran, unifies⟩ | ⟨⟨leftShape, rightShape, ran⟩, fails⟩
  · refine .inl ⟨⟨unified, solver.word⟩, ?_, ⟨unifies.forest, ?_, isAt.word_eq⟩, ?_⟩
    · rw [Solve.unify, ran]
    · exact unifies.size_eq.trans isAt.size_eq
    · intro T frame value
      rw [unifies.models_iff]
      simp [Equation.Holds]
  · refine .inr ⟨⟨leftShape, rightShape, ?_⟩, ?_⟩
    · rw [Solve.unify, ran]
    · intro T frame value models satisfies
      exact fails frame value models (satisfies_cons.mp satisfies).1

/-- Binding a variable is to make a variable of the shape and to unify the two. -/
theorem bound {var : Var} {bound : Bound} (inside : var < start.next)
    (parts_lt : ∀ part ∈ bound.parts, part < start.next) :
    Imposes node start (Solve.bind var bound node) () (start.skip 1)
      (Equation.bind var bound start.next) := by
  have shapes : Imposes node start (Solve.var bound) start.next (start.skip 1)
      [.shape start.next bound] :=
    .var parts_lt
  have unifies : Imposes node (start.skip 1) (Solve.unify var start.next node) () (start.skip 1)
      [.same var start.next] :=
    unify (Nat.lt_succ_of_lt inside) (Nat.lt_succ_self _)
  have both : Imposes node start (Solve.var bound >>= fun shaped => Solve.unify var shaped node) ()
      (start.skip 1) (Equation.bind var bound start.next) :=
    shapes.bind unifies
  exact both

theorem double (times word : Nat) (known : Option Var) :
    Imposes node ⟨word + 1, known⟩ (Solve.double times word) (word + times)
      ⟨word + 1 + times, known⟩ (doublings times word (word + 1)) := by
  induction times generalizing word with
  | zero => exact pure word
  | succ times ih =>
      have doubles : Imposes node ⟨word + 1, known⟩ (Solve.var (.prod word word)) (word + 1)
          ⟨word + 2, known⟩ [.shape (word + 1) (.prod word word)] :=
        var (forall_mem_pair_lt (Nat.lt_succ_self _) (Nat.lt_succ_self _))
      have rest := ih (word + 1)
      rw [show word + 1 + times = word + (times + 1) by omega,
        show word + 1 + 1 + times = word + 1 + (times + 1) by omega] at rest
      exact doubles.bind rest

theorem record (next : Nat) (known : Option Var) (word : Var) :
    Imposes node ⟨next, known⟩ (modify fun solver => { solver with word := some word }) ()
      ⟨next, some word⟩ [] := by
  intro solver isAt
  refine .inl ⟨{ solver with word := some word }, rfl, ⟨isAt.forest, isAt.size_eq, rfl⟩, ?_⟩
  simp

theorem word256_some (next : Nat) (word : Var) :
    Imposes node ⟨next, some word⟩ Solve.word256 word ⟨next, some word⟩ [] := by
  rintro ⟨classes, _⟩ ⟨forest, size_eq, rfl⟩
  refine .inl ⟨⟨classes, some word⟩, rfl, ⟨forest, size_eq, rfl⟩, ?_⟩
  simp

theorem word256_none (next : Nat) :
    Imposes node ⟨next, none⟩ Solve.word256 (next + 9) ⟨next + 10, some (next + 9)⟩
      (wordEquations next) := by
  have units : Imposes node ⟨next, none⟩ (Solve.var .unit) next ⟨next + 1, none⟩
      [.shape next .unit] :=
    var (by simp [Bound.parts])
  have bits : Imposes node ⟨next + 1, none⟩ (Solve.var (.sum next next)) (next + 1)
      ⟨next + 2, none⟩ [.shape (next + 1) (.sum next next)] :=
    var (forall_mem_pair_lt (Nat.lt_succ_self _) (Nat.lt_succ_self _))
  have words : Imposes node ⟨next + 2, none⟩ (Solve.double 8 (next + 1)) (next + 9)
      ⟨next + 10, none⟩ (doublings 8 (next + 1) (next + 2)) :=
    double 8 (next + 1) none
  have all : Imposes node ⟨next, none⟩ (do
        let unit ← Solve.var .unit
        let bit ← Solve.var (.sum unit unit)
        let word ← Solve.double 8 bit
        modify fun solver => { solver with word := some word }
        return word) (next + 9) ⟨next + 10, some (next + 9)⟩ (wordEquations next) :=
    units.bind (bits.bind (words.bind ((record _ none _).bind (pure _))))
  rintro ⟨classes, _⟩ ⟨forest, size_eq, rfl⟩
  exact all ⟨classes, none⟩ ⟨forest, size_eq, rfl⟩

theorem branch {own child : Ends} {component context : Var}
    (ownInside : own.target < start.next) (childInside : child.Within start.next)
    (componentInside : component < start.next) (contextInside : context < start.next) :
    Imposes node start (Solve.branch node component context own.target child) () (start.skip 1)
      (branchEquations own component context start.next child) := by
  have binds : Imposes node start (Solve.bind child.source (.prod component context) node) ()
      (start.skip 1) (Equation.bind child.source (.prod component context) start.next) :=
    bound childInside.1 (forall_mem_pair_lt componentInside contextInside)
  exact binds.bind (unify (Nat.lt_succ_of_lt ownInside) (Nat.lt_succ_of_lt childInside.2))

theorem choice {own : Ends} (ownInside : own.source < start.next) :
    Imposes node start (Solve.constrain.choice node own)
      (start.next, start.next + 1, start.next + 2) (start.skip 5)
      (choiceEquations own start.next) := by
  have sums : Imposes node (start.skip 3) (Solve.var (.sum start.next (start.next + 1)))
      (start.next + 3) (start.skip 4)
      [.shape (start.next + 3) (.sum start.next (start.next + 1))] :=
    var (forall_mem_pair_lt (Nat.lt_add_of_pos_right (by decide))
      (Nat.add_lt_add_left (by decide) _))
  have binds : Imposes node (start.skip 4)
      (Solve.bind own.source (.prod (start.next + 3) (start.next + 2)) node) () (start.skip 5)
      (Equation.bind own.source (.prod (start.next + 3) (start.next + 2)) (start.next + 4)) :=
    bound (Nat.lt_add_right 4 ownInside)
      (forall_mem_pair_lt (Nat.add_lt_add_left (by decide) _) (Nat.add_lt_add_left (by decide) _))
  exact fresh.bind (fresh.bind (fresh.bind (sums.bind (binds.bind (pure _)))))

theorem delegate {own left right : Ends} {word : Var} (ownWithin : own.Within start.next)
    (wordInside : word < start.next) (leftWithin : left.Within start.next)
    (rightWithin : right.Within start.next) :
    Imposes node start (do
        Solve.bind left.source (.prod word own.source) node
        let b ← Solve.fresh
        Solve.bind left.target (.prod b right.source) node
        Solve.bind own.target (.prod b right.target) node) () (start.skip 4)
      (disconnectEquations own word start.next left right) := by
  have first : Imposes node start (Solve.bind left.source (.prod word own.source) node) ()
      (start.skip 1) (Equation.bind left.source (.prod word own.source) start.next) :=
    bound leftWithin.1 (forall_mem_pair_lt wordInside ownWithin.1)
  refine first.bind (fresh.bind (bind (bound ?_ ?_) (bound ?_ ?_)))
  · exact Nat.lt_add_right 2 leftWithin.2
  · exact forall_mem_pair_lt (Nat.lt_succ_self _) (Nat.lt_add_right 2 rightWithin.1)
  · exact Nat.lt_add_right 3 ownWithin.2
  · exact forall_mem_pair_lt (Nat.lt_add_right 1 (Nat.lt_succ_self _))
      (Nat.lt_add_right 3 rightWithin.2)

/-- Inference imposes the equations of a typing rule. -/
theorem constrain {own : Ends} {node : Combinator Ends} (index : Nat) (valid : start.Valid)
    (ownWithin : own.Within start.next)
    (childrenWithin : ∀ child ∈ node.children, child.Within start.next) :
    Imposes index start (Solve.constrain index own node) () (ruleEquations own start node).2
      (ruleEquations own start node).1 := by
  cases node with
  | iden => exact unify ownWithin.1 ownWithin.2
  | unit => exact bound ownWithin.2 (by simp [Bound.parts])
  | injl child =>
      have childWithin := childrenWithin child (.head _)
      have unifies := @unify index start _ _ ownWithin.1 childWithin.1
      refine unifies.bind (fresh.bind (bound (Nat.lt_succ_of_lt ownWithin.2) ?_))
      exact forall_mem_pair_lt (Nat.lt_succ_of_lt childWithin.2) (Nat.lt_succ_self _)
  | injr child =>
      have childWithin := childrenWithin child (.head _)
      have unifies := @unify index start _ _ ownWithin.1 childWithin.1
      refine unifies.bind (fresh.bind (bound (Nat.lt_succ_of_lt ownWithin.2) ?_))
      exact forall_mem_pair_lt (Nat.lt_succ_self _) (Nat.lt_succ_of_lt childWithin.2)
  | take child =>
      have childWithin := childrenWithin child (.head _)
      refine fresh.bind (bind (bound (Nat.lt_succ_of_lt ownWithin.1) ?_) (unify ?_ ?_))
      · exact forall_mem_pair_lt (Nat.lt_succ_of_lt childWithin.1) (Nat.lt_succ_self _)
      · exact Nat.lt_add_right 2 ownWithin.2
      · exact Nat.lt_add_right 2 childWithin.2
  | drop child =>
      have childWithin := childrenWithin child (.head _)
      refine fresh.bind (bind (bound (Nat.lt_succ_of_lt ownWithin.1) ?_) (unify ?_ ?_))
      · exact forall_mem_pair_lt (Nat.lt_succ_self _) (Nat.lt_succ_of_lt childWithin.1)
      · exact Nat.lt_add_right 2 ownWithin.2
      · exact Nat.lt_add_right 2 childWithin.2
  | comp left right =>
      have leftWithin := childrenWithin left (.head _)
      have rightWithin := childrenWithin right (.tail _ (.head _))
      have first := @unify index start _ _ ownWithin.1 leftWithin.1
      have second := @unify index start _ _ leftWithin.2 rightWithin.1
      have third := @unify index start _ _ ownWithin.2 rightWithin.2
      exact first.bind (second.bind third)
  | pair left right =>
      have leftWithin := childrenWithin left (.head _)
      have rightWithin := childrenWithin right (.tail _ (.head _))
      have first := @unify index start _ _ ownWithin.1 leftWithin.1
      have second := @unify index start _ _ ownWithin.1 rightWithin.1
      refine first.bind (second.bind (bound ownWithin.2 ?_))
      exact forall_mem_pair_lt leftWithin.2 rightWithin.2
  | case left right =>
      have leftWithin := childrenWithin left (.head _)
      have rightWithin := childrenWithin right (.tail _ (.head _))
      have chooses := @choice index start _ ownWithin.1
      refine chooses.bind (bind (branch ?_ ?_ ?_ ?_) (branch ?_ ?_ ?_ ?_))
      · exact Nat.lt_add_right 5 ownWithin.2
      · exact leftWithin.mono (Nat.le_add_right _ 5)
      · simp [Frontier.skip]
      · simp [Frontier.skip]
      · exact Nat.lt_add_right 6 ownWithin.2
      · exact rightWithin.mono (Nat.le_add_right _ 6)
      · simp [Frontier.skip]
      · simp [Frontier.skip]
  | assertl left right =>
      have leftWithin := childrenWithin left (.head _)
      have chooses := @choice index start _ ownWithin.1
      refine chooses.bind (branch ?_ ?_ ?_ ?_)
      · exact Nat.lt_add_right 5 ownWithin.2
      · exact leftWithin.mono (Nat.le_add_right _ 5)
      · simp [Frontier.skip]
      · simp [Frontier.skip]
  | assertr left right =>
      have rightWithin := childrenWithin right (.tail _ (.head _))
      have chooses := @choice index start _ ownWithin.1
      refine chooses.bind (branch ?_ ?_ ?_ ?_)
      · exact Nat.lt_add_right 5 ownWithin.2
      · exact rightWithin.mono (Nat.le_add_right _ 5)
      · simp [Frontier.skip]
      · simp [Frontier.skip]
  | disconnect left right =>
      have leftWithin := childrenWithin left (.head _)
      have rightWithin := childrenWithin right (.tail _ (.head _))
      rcases start with ⟨next, _ | word⟩
      · refine (word256_none next).bind (delegate ?_ ?_ ?_ ?_)
        · exact ownWithin.mono (Nat.le_add_right _ 10)
        · exact Nat.lt_succ_self _
        · exact leftWithin.mono (Nat.le_add_right _ 10)
        · exact rightWithin.mono (Nat.le_add_right _ 10)
      · exact (word256_some next word).bind
          (delegate ownWithin (valid word rfl) leftWithin rightWithin)
  | witness => exact pure ()
  | hidden root => exact pure ()

end Imposes

/-- A solver that has the models of all equations so far. -/
structure Solver.Represents (solver : Solver) (layout : Layout) : Prop where
  isAt : solver.At layout.frontier
  models_iff : ∀ {T : Type} (frame : Frame T) (value : Var → T),
    frame.Models value solver.classes ↔ frame.Satisfies value layout.equations

theorem represents_empty : Solver.Represents ⟨.empty, none⟩ .empty where
  isAt := ⟨Classes.Forest.empty, rfl, rfl⟩
  models_iff frame value := by simp [Layout.empty, Classes.models_empty frame value]

namespace Layout

variable {layout : Layout} {solver : Solver}

theorem satisfies_of_foldl {nodes : List Node} {T : Type} {frame : Frame T} {value : Var → T}
    (satisfies : frame.Satisfies value (nodes.foldl add layout).equations) :
    frame.Satisfies value layout.equations := by
  induction nodes generalizing layout with
  | nil => exact satisfies
  | cons node nodes ih => exact (satisfies_append.mp (ih satisfies)).1

theorem satisfies_of_close {T : Type} {frame : Frame T} {value : Var → T}
    (satisfies : frame.Satisfies value layout.close.equations) :
    frame.Satisfies value layout.equations := by
  unfold close at satisfies
  split at satisfies
  case h_1 => exact satisfies
  case h_2 => exact (satisfies_append.mp satisfies).1

theorem satisfies_take {nodes : List Node} {T : Type} {frame : Frame T} {value : Var → T}
    (satisfies : frame.Satisfies value (ofNodes nodes).equations) (count : Nat) :
    frame.Satisfies value (ofNodes (nodes.take count)).equations := by
  rw [ofNodes, ← List.take_append_drop count nodes, List.foldl_append] at satisfies
  exact satisfies_of_foldl satisfies

/-- The equations of the nodes up to an index, and if that is the last one, those of the root. -/
def upTo (nodes : List Node) (index : Nat) : Layout :=
  if index + 1 = nodes.length then (ofNodes nodes).close else ofNodes (nodes.take (index + 1))

theorem satisfies_take_of_upTo {nodes : List Node} {index : Nat} {T : Type} {frame : Frame T}
    {value : Var → T} (satisfies : frame.Satisfies value (upTo nodes index).equations) :
    frame.Satisfies value (ofNodes (nodes.take (index + 1))).equations := by
  unfold upTo at satisfies
  split at satisfies
  case isTrue => exact satisfies_take (satisfies_of_close satisfies) _
  case isFalse => exact satisfies

theorem satisfies_upTo {nodes : List Node} {T : Type} {frame : Frame T} {value : Var → T}
    (satisfies : frame.Satisfies value (ofNodes nodes).close.equations) (index : Nat) :
    frame.Satisfies value (upTo nodes index).equations := by
  unfold upTo
  split
  case isTrue => exact satisfies
  case isFalse => exact satisfies_take (satisfies_of_close satisfies) _

theorem constrainAll_cons (node : Node) (rest : List Node) (isAt : solver.At layout.frontier) :
    constrainAll (node :: rest) layout.ends solver =
      (do
        let source ← Solve.fresh
        let target ← Solve.fresh
        Solve.constrain layout.ends.size ⟨source, target⟩ (layout.children node) : Solve Unit) solver
        >>= fun result => constrainAll rest (layout.add node).ends result.2 := by
  have own_eq : (⟨solver.classes.size, (solver.classes.push .free).size⟩ : Ends) = layout.own := by
    rw [Classes.Forest.size_push, isAt.size_eq]
    rfl
  have children_eq : (node.map fun child =>
      (layout.ends.push ⟨solver.classes.size, (solver.classes.push .free).size⟩).getD child default) =
        layout.children node := by
    rw [own_eq]
    rfl
  change (Solve.constrain _ _ (node.map fun child =>
      (layout.ends.push ⟨solver.classes.size, (solver.classes.push .free).size⟩).getD child default)
        _ >>= _) = _
  rw [children_eq]
  change _ = (Solve.constrain layout.ends.size
    ⟨solver.classes.size, (solver.classes.push .free).size⟩ (layout.children node) _ >>= _)
  rw [own_eq]
  rfl

theorem Valid.imposes (valid : layout.Valid) (node : Node) :
    Imposes layout.ends.size layout.frontier (do
        let source ← Solve.fresh
        let target ← Solve.fresh
        Solve.constrain layout.ends.size ⟨source, target⟩ (layout.children node)) ()
      (layout.add node).frontier
      (ruleEquations layout.own (layout.frontier.skip 2) (layout.children node)).1 := by
  have rule := Imposes.constrain layout.ends.size (Frontier.Valid.skip valid.word 2)
    layout.own_within (valid.children_within node)
  exact Imposes.fresh.bind (Imposes.fresh.bind rule)

/-- Inference imposes the equations of node after node, or blames the first node for which no assignment
satisfies the equations so far. -/
theorem constrainAll_spec {nodes : List Node} (valid : layout.Valid)
    (represents : solver.Represents layout) :
    (∃ solver', constrainAll nodes layout.ends solver = .ok ((nodes.foldl add layout).ends, solver') ∧
        solver'.Represents (nodes.foldl add layout)) ∨
      ∃ before node after, nodes = before ++ node :: after ∧
        (∃ left right, constrainAll nodes layout.ends solver =
          .error (.unify (layout.ends.size + before.length) left right)) ∧
        (∃ solver' : Solver, solver'.Represents (before.foldl add layout)) ∧
        ∀ {T : Type} (frame : Frame T) (value : Var → T),
          ¬ frame.Satisfies value ((before.foldl add layout).add node).equations := by
  induction nodes generalizing layout solver with
  | nil => exact .inl ⟨solver, rfl, represents⟩
  | cons node nodes ih =>
      rw [constrainAll_cons node nodes represents.isAt]
      rcases valid.imposes node solver represents.isAt with
        ⟨solver', ran, isAt, models_iff⟩ | ⟨⟨left, right, ran⟩, fails⟩
      · rw [ran]
        have represents' : solver'.Represents (layout.add node) := by
          refine ⟨isAt, ?_⟩
          intro T frame value
          rw [models_iff, represents.models_iff]
          exact satisfies_append.symm
        rcases ih (valid.add node) represents' with
          succeeds | ⟨before, failing, after, rfl, ⟨left, right, blamed⟩, represented, fails⟩
        · exact .inl succeeds
        · refine .inr ⟨node :: before, failing, after, rfl, ⟨left, right, ?_⟩, represented, fails⟩
          have size_eq : layout.ends.size + (node :: before).length =
              (layout.add node).ends.size + before.length := by
            rw [size_ends_add, List.length_cons]
            omega
          rw [size_eq]
          exact blamed
      · rw [ran]
        refine .inr ⟨[], node, nodes, rfl, ⟨left, right, rfl⟩, ⟨solver, represents⟩, ?_⟩
        intro T frame value satisfies
        have both := satisfies_append.mp satisfies
        exact fails frame value ((represents.models_iff frame value).mpr both.1) both.2

theorem constrainRoot_spec (valid : layout.Valid) (represents : solver.Represents layout) :
    (∃ solver', constrainRoot layout.ends solver = .ok ((), solver') ∧
        solver'.Represents layout.close) ∨
      (∃ left right, constrainRoot layout.ends solver =
          .error (.unify (layout.ends.size - 1) left right)) ∧
        ∀ {T : Type} (frame : Frame T) (value : Var → T),
          ¬ frame.Satisfies value layout.close.equations := by
  cases isLast : layout.ends.back? with
  | none =>
      have step : constrainRoot layout.ends = pure () := by rw [constrainRoot, isLast]
      have closed : layout.close = layout := by rw [close, isLast]
      rw [step, closed]
      exact .inl ⟨solver, rfl, represents⟩
  | some root =>
      have rootWithin := valid.ends root (Array.mem_of_back? isLast)
      have step : constrainRoot layout.ends = (do
          Solve.bind root.source .unit (layout.ends.size - 1)
          Solve.bind root.target .unit (layout.ends.size - 1)) := by
        rw [constrainRoot, isLast]
      have closed : layout.close = ⟨layout.ends,
          layout.equations ++ (Equation.bind root.source .unit layout.frontier.next ++
            Equation.bind root.target .unit (layout.frontier.next + 1)),
          layout.frontier.skip 2⟩ := by
        rw [close, isLast]
      have first : Imposes (layout.ends.size - 1) layout.frontier
          (Solve.bind root.source .unit (layout.ends.size - 1)) () (layout.frontier.skip 1)
          (Equation.bind root.source .unit layout.frontier.next) :=
        .bound rootWithin.1 (by simp [Bound.parts])
      have both : Imposes (layout.ends.size - 1) layout.frontier (do
          Solve.bind root.source .unit (layout.ends.size - 1)
          Solve.bind root.target .unit (layout.ends.size - 1)) () (layout.frontier.skip 2)
          (Equation.bind root.source .unit layout.frontier.next ++
            Equation.bind root.target .unit (layout.frontier.next + 1)) :=
        first.bind (.bound (Nat.lt_succ_of_lt rootWithin.2) (by simp [Bound.parts]))
      rw [step, closed]
      rcases both solver represents.isAt with
        ⟨solver', ran, isAt, models_iff⟩ | ⟨⟨left, right, ran⟩, fails⟩
      · refine .inl ⟨solver', ran, isAt, ?_⟩
        intro T frame value
        rw [models_iff, represents.models_iff]
        exact satisfies_append.symm
      · refine .inr ⟨⟨left, right, ran⟩, ?_⟩
        intro T frame value satisfies
        have both := satisfies_append.mp satisfies
        exact fails frame value ((represents.models_iff frame value).mpr both.1) both.2

end Layout

/-- Inference solves the equations of a list of nodes before it reads off types, or it blames the first
node for which no assignment satisfies the equations so far. -/
theorem inferArrows_located (nodes : Array Node) :
    (∃ solver : Solver, solver.Represents (Layout.ofNodes nodes.toList).close ∧
        inferArrows nodes = resolveAll solver.classes
          (nodes.toList.zip (Layout.ofNodes nodes.toList).ends.toList)
          (Array.replicate solver.classes.size .unvisited) #[]) ∨
      ∃ index left right, inferArrows nodes = .error (.unify index left right) ∧
        index < nodes.size ∧
        (∃ solver : Solver, solver.classes.Forest ∧
          ∀ {T : Type} (frame : Frame T) (value : Var → T), frame.Models value solver.classes →
            frame.Satisfies value (Layout.ofNodes (nodes.toList.take index)).equations) ∧
        ∀ {T : Type} (frame : Frame T) (value : Var → T),
          ¬ frame.Satisfies value (Layout.upTo nodes.toList index).equations := by
  have valid := Layout.valid_ofNodes nodes.toList
  rcases Layout.constrainAll_spec Layout.valid_empty represents_empty with
    ⟨solver, ran, represents⟩ |
      ⟨before, node, after, split, ⟨left, right, ran⟩, ⟨solver, represents⟩, fails⟩
  · have continues : inferArrows nodes =
        constrainRoot (Layout.ofNodes nodes.toList).ends solver >>= fun result =>
          resolveAll result.2.classes
            (nodes.toList.zip (Layout.ofNodes nodes.toList).ends.toList)
            (Array.replicate result.2.classes.size .unvisited) #[] := by
      change (constrainAll nodes.toList Layout.empty.ends ⟨.empty, none⟩ >>= _) = _
      rw [ran]
      rfl
    rw [continues]
    rcases Layout.constrainRoot_spec valid represents with
      ⟨solver', ranRoot, representsRoot⟩ | ⟨⟨left, right, ranRoot⟩, fails⟩
    · rw [ranRoot]
      exact .inl ⟨solver', representsRoot, rfl⟩
    · have nonempty : nodes.toList ≠ [] := by
        intro isNil
        rw [isNil] at ranRoot
        cases ranRoot
      have length_eq : nodes.toList.length = nodes.size - 1 + 1 := by
        have := List.length_pos_iff.mpr nonempty
        rw [Array.length_toList] at this ⊢
        omega
      have upTo_eq : Layout.upTo nodes.toList (nodes.size - 1) =
          (Layout.ofNodes nodes.toList).close := by
        rw [Layout.upTo, if_pos length_eq.symm]
      rw [ranRoot]
      refine .inr ⟨nodes.size - 1, left, right, ?_, ?_, ⟨solver, represents.isAt.forest, ?_⟩, ?_⟩
      · rw [Layout.size_ends_ofNodes, Array.length_toList]
        rfl
      · rw [Array.length_toList] at length_eq
        omega
      · intro T frame value models
        exact Layout.satisfies_take ((represents.models_iff frame value).mp models) _
      · rw [upTo_eq]
        exact fails
  · have ran : inferArrows nodes = .error (.unify before.length left right) := by
      change (constrainAll nodes.toList Layout.empty.ends ⟨.empty, none⟩ >>= _) = _
      rw [ran, show Layout.empty.ends.size + before.length = before.length from Nat.zero_add _]
      rfl
    have inside : before.length < nodes.size := by
      rw [← Array.length_toList, split]
      simp
    refine .inr ⟨before.length, left, right, ran, inside, ⟨solver, represents.isAt.forest, ?_⟩, ?_⟩
    · intro T frame value models
      rw [split, List.take_left]
      exact (represents.models_iff frame value).mp models
    · intro T frame value satisfies
      have satisfiesTaken := Layout.satisfies_take_of_upTo satisfies
      rw [split, List.take_length_add_append, List.take_succ_cons, List.take_zero,
        Layout.ofNodes_append_singleton] at satisfiesTaken
      exact fails frame value satisfiesTaken

/-- Inference solves the equations of a list of nodes before it reads off types, or no assignment
satisfies them. -/
theorem inferArrows_eq (nodes : Array Node) :
    (∃ solver : Solver, solver.Represents (Layout.ofNodes nodes.toList).close ∧
        inferArrows nodes = resolveAll solver.classes
          (nodes.toList.zip (Layout.ofNodes nodes.toList).ends.toList)
          (Array.replicate solver.classes.size .unvisited) #[]) ∨
      (∃ error, inferArrows nodes = .error error) ∧
        ∀ {T : Type} (frame : Frame T) (value : Var → T),
          ¬ frame.Satisfies value (equationsOf nodes) := by
  rcases inferArrows_located nodes with solved | ⟨index, left, right, failed, -, -, fails⟩
  · exact .inl solved
  · refine .inr ⟨⟨_, failed⟩, ?_⟩
    intro T frame value satisfies
    exact fails frame value (Layout.satisfies_upTo satisfies index)

end Simplicity.Typing
