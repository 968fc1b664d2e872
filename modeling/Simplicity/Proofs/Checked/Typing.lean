import Simplicity.Proofs.Checked.Classes
import Simplicity.Proofs.Typing.Inference

/-!
# Checked inference

A rule touches the variables of its node, those of its children, which come before the node, and
those that it makes. A step that starts at a given frontier is checked in the way in which its
equations are put together: `Mirrors` says of a step what has to be known for the next one.
-/

namespace Simplicity

namespace Typing

/-! ### Rules -/

/-- A checked step of inference. -/
abbrev Solving (α : Type) : Type :=
  StateT Solver (Attempt TypeError) α

namespace Solving

variable {α : Type}

/-- A plain step, which does not look into the classes. -/
def of (step : Solve α) : Solving α := fun solver =>
  Attempt.of (step solver)

def unify (left right : Var) (node : Nat) : Solving Unit := fun ⟨classes, word⟩ => do
  let classes ← Checked.unify classes left right node
  return ((), ⟨classes, word⟩)

def bind (var : Var) (bound : Bound) (node : Nat) : Solving Unit := fun ⟨classes, word⟩ => do
  let classes ← Checked.bind classes var bound node
  return ((), ⟨classes, word⟩)

def branch (index : Nat) (component context target : Var) (child : Ends) : Solving Unit := do
  bind child.source (.prod component context) index
  unify target child.target index

def constrain (index : Nat) (own : Ends) : Combinator Ends → Solving Unit
  | .iden => unify own.source own.target index
  | .unit => bind own.target .unit index
  | .injl child => do
      unify own.source child.source index
      let other ← of Solve.fresh
      bind own.target (.sum child.target other) index
  | .injr child => do
      unify own.source child.source index
      let other ← of Solve.fresh
      bind own.target (.sum other child.target) index
  | .take child => do
      let other ← of Solve.fresh
      bind own.source (.prod child.source other) index
      unify own.target child.target index
  | .drop child => do
      let other ← of Solve.fresh
      bind own.source (.prod other child.source) index
      unify own.target child.target index
  | .comp left right => do
      unify own.source left.source index
      unify left.target right.source index
      unify own.target right.target index
  | .pair left right => do
      unify own.source left.source index
      unify own.source right.source index
      bind own.target (.prod left.target right.target) index
  | .case left right => do
      let (a, b, c) ← choice
      branch index a c own.target left
      branch index b c own.target right
  | .assertl left _ => do
      let (a, _, c) ← choice
      branch index a c own.target left
  | .assertr _ right => do
      let (_, b, c) ← choice
      branch index b c own.target right
  | .disconnect left right => do
      let word ← of Solve.word256
      bind left.source (.prod word own.source) index
      let b ← of Solve.fresh
      bind left.target (.prod b right.source) index
      bind own.target (.prod b right.target) index
  | .witness | .hidden _ => return ()
where
  choice : Solving (Var × Var × Var) := do
    let a ← of Solve.fresh
    let b ← of Solve.fresh
    let c ← of Solve.fresh
    let sum ← of (Solve.var (.sum a b))
    bind own.source (.prod sum c) index
    return (a, b, c)

end Solving

theorem Imposes.reaches {α : Type} {node : Nat} {start stop : Frontier} {step : Solve α} {result : α}
    {equations : List Equation} (imposes : Imposes node start step result stop equations)
    {solver solver' : Solver} (isAt : solver.At start) {found : α}
    (ran : step solver = .ok (found, solver')) : found = result ∧ solver'.At stop := by
  rcases imposes solver isAt with ⟨_, ran', isAt', -⟩ | ⟨⟨_, _, failed⟩, -⟩
  · rw [ran] at ran'
    cases ran'
    exact ⟨rfl, isAt'⟩
  · rw [ran] at failed
    cases failed

/-- From a frontier on, a checked step does what a plain one does, and if that does not fail, it gives
a result and leads to another frontier. -/
def Mirrors {α : Type} (start : Frontier) (checked : Solving α) (plain : Solve α) (result : α)
    (stop : Frontier) : Prop :=
  ∀ solver : Solver, solver.At start → checked solver = .of (plain solver) ∧
    ∀ found solver', plain solver = .ok (found, solver') → found = result ∧ solver'.At stop

namespace Mirrors

variable {α β : Type} {node : Nat} {start middle stop : Frontier}

theorem of {step : Solve α} {result : α} {equations : List Equation}
    (imposes : Imposes node start step result stop equations) :
    Mirrors start (.of step) step result stop :=
  fun _ isAt => ⟨rfl, fun _ _ => imposes.reaches isAt⟩

theorem pure (result : α) : Mirrors start (Pure.pure result) (Pure.pure result) result start := by
  intro solver isAt
  refine ⟨rfl, ?_⟩
  rintro found solver' ⟨⟩
  exact ⟨rfl, isAt⟩

theorem bind {first : Solving α} {first' : Solve α} {second : α → Solving β} {second' : α → Solve β}
    {between : α} {result : β} (mirrorsFirst : Mirrors start first first' between middle)
    (mirrorsSecond : Mirrors middle (second between) (second' between) result stop) :
    Mirrors start (first >>= second) (first' >>= second') result stop := by
  intro solver isAt
  rcases mirrorsFirst solver isAt with ⟨agrees, reaches⟩
  change (first solver >>= fun pair => second pair.1 pair.2) =
      .of (first' solver >>= fun pair => second' pair.1 pair.2) ∧
    ∀ found solver', (first' solver >>= fun pair => second' pair.1 pair.2) = .ok (found, solver') → _
  rw [agrees]
  cases ran : first' solver with
  | error error =>
      refine ⟨rfl, ?_⟩
      rintro found solver' ⟨⟩
  | ok pair =>
      rcases pair with ⟨found, solver'⟩
      rcases reaches found solver' ran with ⟨rfl, isAt'⟩
      exact mirrorsSecond solver' isAt'

theorem unify {left right : Var} (insideLeft : left < start.next) (insideRight : right < start.next) :
    Mirrors start (Solving.unify left right node) (Solve.unify left right node) () start := by
  rintro solver isAt
  refine ⟨?_, fun _ _ => (Imposes.unify insideLeft insideRight).reaches isAt⟩
  rw [← isAt.size_eq] at insideLeft insideRight
  rw [Solving.unify, Checked.unify_eq node isAt.forest insideLeft insideRight, Solve.unify]
  cases solver.classes.unify left right node <;> rfl

theorem bound {var : Var} {bound : Bound} (inside : var < start.next)
    (parts_lt : ∀ part ∈ bound.parts, part < start.next) :
    Mirrors start (Solving.bind var bound node) (Solve.bind var bound node) () (start.skip 1) := by
  rintro solver isAt
  refine ⟨?_, fun _ _ => (Imposes.bound inside parts_lt).reaches isAt⟩
  rw [← isAt.size_eq] at inside parts_lt
  rw [Solving.bind, Checked.bind_eq node isAt.forest inside parts_lt, Solve.bind]
  cases solver.classes.bind var bound node <;> rfl

theorem branch {own child : Ends} {component context : Var}
    (ownInside : own.target < start.next) (childInside : child.Within start.next)
    (componentInside : component < start.next) (contextInside : context < start.next) :
    Mirrors start (Solving.branch node component context own.target child)
      (Solve.branch node component context own.target child) () (start.skip 1) :=
  bind (bound childInside.1 (forall_mem_pair_lt componentInside contextInside))
    (unify (Nat.lt_succ_of_lt ownInside) (Nat.lt_succ_of_lt childInside.2))

theorem fresh : Mirrors start (.of Solve.fresh) Solve.fresh start.next (start.skip 1) :=
  of (@Imposes.fresh 0 start)

theorem choice {own : Ends} (ownInside : own.source < start.next) :
    Mirrors start (Solving.constrain.choice node own) (Solve.constrain.choice node own)
      (start.next, start.next + 1, start.next + 2) (start.skip 5) := by
  have sums : Mirrors (start.skip 3) (.of (Solve.var (.sum start.next (start.next + 1))))
      (Solve.var (.sum start.next (start.next + 1))) (start.next + 3) (start.skip 4) := by
    apply @of _ node
    apply Imposes.var
    exact forall_mem_pair_lt (Nat.lt_add_of_pos_right (by decide)) (Nat.add_lt_add_left (by decide) _)
  have binds : Mirrors (start.skip 4)
      (Solving.bind own.source (.prod (start.next + 3) (start.next + 2)) node)
      (Solve.bind own.source (.prod (start.next + 3) (start.next + 2)) node) () (start.skip 5) :=
    bound (Nat.lt_add_right 4 ownInside)
      (forall_mem_pair_lt (Nat.add_lt_add_left (by decide) _) (Nat.add_lt_add_left (by decide) _))
  exact fresh.bind (fresh.bind (fresh.bind (sums.bind (binds.bind (pure _)))))

theorem delegate {own left right : Ends} {word : Var} (ownWithin : own.Within start.next)
    (wordInside : word < start.next) (leftWithin : left.Within start.next)
    (rightWithin : right.Within start.next) :
    Mirrors start (do
        Solving.bind left.source (.prod word own.source) node
        let b ← .of Solve.fresh
        Solving.bind left.target (.prod b right.source) node
        Solving.bind own.target (.prod b right.target) node)
      (do
        Solve.bind left.source (.prod word own.source) node
        let b ← Solve.fresh
        Solve.bind left.target (.prod b right.source) node
        Solve.bind own.target (.prod b right.target) node) () (start.skip 4) := by
  have first : Mirrors start (Solving.bind left.source (.prod word own.source) node)
      (Solve.bind left.source (.prod word own.source) node) () (start.skip 1) :=
    bound leftWithin.1 (forall_mem_pair_lt wordInside ownWithin.1)
  refine first.bind (fresh.bind (bind (bound ?_ ?_) (bound ?_ ?_)))
  · exact Nat.lt_add_right 2 leftWithin.2
  · exact forall_mem_pair_lt (Nat.lt_succ_self _) (Nat.lt_add_right 2 rightWithin.1)
  · exact Nat.lt_add_right 3 ownWithin.2
  · exact forall_mem_pair_lt (Nat.lt_add_right 1 (Nat.lt_succ_self _))
      (Nat.lt_add_right 3 rightWithin.2)

/-- The rule of a node whose variables, and those of its children, have been made touches no others
but those that it makes. -/
theorem constrain {own : Ends} {node : Combinator Ends} (index : Nat) (valid : start.Valid)
    (ownWithin : own.Within start.next)
    (childrenWithin : ∀ child ∈ node.children, child.Within start.next) :
    Mirrors start (Solving.constrain index own node) (Solve.constrain index own node) ()
      (ruleEquations own start node).2 := by
  cases node with
  | iden => exact unify ownWithin.1 ownWithin.2
  | unit => exact bound ownWithin.2 (by simp [Bound.parts])
  | injl child =>
      have childWithin := childrenWithin child (.head _)
      have unifies := @unify index start _ _ ownWithin.1 childWithin.1
      refine unifies.bind (fresh.bind (bound (Nat.lt_succ_of_lt ownWithin.2) ?_))
      exact forall_mem_pair_lt (Nat.lt_succ_of_lt childWithin.2) (Nat.lt_succ_self _)
  | injr child =>
      have childWithin := childrenWithin child (.head _)
      have unifies := @unify index start _ _ ownWithin.1 childWithin.1
      refine unifies.bind (fresh.bind (bound (Nat.lt_succ_of_lt ownWithin.2) ?_))
      exact forall_mem_pair_lt (Nat.lt_succ_self _) (Nat.lt_succ_of_lt childWithin.2)
  | take child =>
      have childWithin := childrenWithin child (.head _)
      refine fresh.bind (bind (bound (Nat.lt_succ_of_lt ownWithin.1) ?_) (unify ?_ ?_))
      · exact forall_mem_pair_lt (Nat.lt_succ_of_lt childWithin.1) (Nat.lt_succ_self _)
      · exact Nat.lt_add_right 2 ownWithin.2
      · exact Nat.lt_add_right 2 childWithin.2
  | drop child =>
      have childWithin := childrenWithin child (.head _)
      refine fresh.bind (bind (bound (Nat.lt_succ_of_lt ownWithin.1) ?_) (unify ?_ ?_))
      · exact forall_mem_pair_lt (Nat.lt_succ_self _) (Nat.lt_succ_of_lt childWithin.1)
      · exact Nat.lt_add_right 2 ownWithin.2
      · exact Nat.lt_add_right 2 childWithin.2
  | comp left right =>
      have leftWithin := childrenWithin left (.head _)
      have rightWithin := childrenWithin right (.tail _ (.head _))
      have first := @unify index start _ _ ownWithin.1 leftWithin.1
      have second := @unify index start _ _ leftWithin.2 rightWithin.1
      have third := @unify index start _ _ ownWithin.2 rightWithin.2
      exact first.bind (second.bind third)
  | pair left right =>
      have leftWithin := childrenWithin left (.head _)
      have rightWithin := childrenWithin right (.tail _ (.head _))
      have first := @unify index start _ _ ownWithin.1 leftWithin.1
      have second := @unify index start _ _ ownWithin.1 rightWithin.1
      refine first.bind (second.bind (bound ownWithin.2 ?_))
      exact forall_mem_pair_lt leftWithin.2 rightWithin.2
  | case left right =>
      have leftWithin := childrenWithin left (.head _)
      have rightWithin := childrenWithin right (.tail _ (.head _))
      have chooses := @choice index start _ ownWithin.1
      refine chooses.bind (bind (branch ?_ ?_ ?_ ?_) (branch ?_ ?_ ?_ ?_))
      · exact Nat.lt_add_right 5 ownWithin.2
      · exact leftWithin.mono (Nat.le_add_right _ 5)
      · simp [Frontier.skip]
      · simp [Frontier.skip]
      · exact Nat.lt_add_right 6 ownWithin.2
      · exact rightWithin.mono (Nat.le_add_right _ 6)
      · simp [Frontier.skip]
      · simp [Frontier.skip]
  | assertl left right =>
      have leftWithin := childrenWithin left (.head _)
      have chooses := @choice index start _ ownWithin.1
      refine chooses.bind (branch ?_ ?_ ?_ ?_)
      · exact Nat.lt_add_right 5 ownWithin.2
      · exact leftWithin.mono (Nat.le_add_right _ 5)
      · simp [Frontier.skip]
      · simp [Frontier.skip]
  | assertr left right =>
      have rightWithin := childrenWithin right (.tail _ (.head _))
      have chooses := @choice index start _ ownWithin.1
      refine chooses.bind (branch ?_ ?_ ?_ ?_)
      · exact Nat.lt_add_right 5 ownWithin.2
      · exact rightWithin.mono (Nat.le_add_right _ 5)
      · simp [Frontier.skip]
      · simp [Frontier.skip]
  | disconnect left right =>
      have leftWithin := childrenWithin left (.head _)
      have rightWithin := childrenWithin right (.tail _ (.head _))
      rcases start with ⟨next, _ | word⟩
      · have words := of (@Imposes.word256_none index next)
        refine words.bind (delegate ?_ ?_ ?_ ?_)
        · exact ownWithin.mono (Nat.le_add_right _ 10)
        · exact Nat.lt_succ_self _
        · exact leftWithin.mono (Nat.le_add_right _ 10)
        · exact rightWithin.mono (Nat.le_add_right _ 10)
      · have words := of (@Imposes.word256_some index next word)
        exact words.bind (delegate ownWithin (valid word rfl) leftWithin rightWithin)
  | witness => exact pure ()
  | hidden root => exact pure ()

end Mirrors

end Typing

namespace Checked

open Typing

/-! ### Nodes -/

/-- A node with the variables that its children have been given. -/
def children (ends : Array Ends) (node : Node) : Checked (Combinator Ends) :=
  node.traverse (read ends)

def constrainAll : List Node → Array Ends → Solver → Attempt TypeError (Array Ends × Solver)
  | [], ends, solver => pure (ends, solver)
  | node :: rest, ends, solver => do
      let (source, solver) ← Solving.of Solve.fresh solver
      let (target, solver) ← Solving.of Solve.fresh solver
      let index := ends.size
      let ends := ends.push ⟨source, target⟩
      let children ← children ends node
      let ((), solver) ← Solving.constrain index ⟨source, target⟩ children solver
      constrainAll rest ends solver

def constrainRoot (ends : Array Ends) : Solving Unit :=
  match ends.back? with
  | none => return ()
  | some root => do
      let last ← Checked.minus ends.size 1
      Solving.bind root.source .unit last
      Solving.bind root.target .unit last

section Nodes

variable {layout : Layout} {solver : Solver}

theorem children_eq {node : Node} (earlier : ∀ child ∈ node.children, child ≤ layout.ends.size) :
    children (layout.ends.push layout.own) node = pure (layout.children node) := by
  apply Combinator.traverse_eq_map
  intro child member
  have inside : child < (layout.ends.push layout.own).size := by
    rw [Array.size_push]
    exact Nat.lt_succ_of_le (earlier child member)
  exact read_eq_getD inside default

theorem constrainAll_cons {node : Node} (rest : List Node) (isAt : solver.At layout.frontier)
    (earlier : ∀ child ∈ node.children, child ≤ layout.ends.size) :
    constrainAll (node :: rest) layout.ends solver =
      (do
        let source ← Solving.of Solve.fresh
        let target ← Solving.of Solve.fresh
        Solving.constrain layout.ends.size ⟨source, target⟩ (layout.children node) : Solving Unit)
        solver >>= fun result => constrainAll rest (layout.add node).ends result.2 := by
  have own_eq : (⟨solver.classes.size, (solver.classes.push .free).size⟩ : Ends) = layout.own := by
    rw [Classes.Forest.size_push, isAt.size_eq]
    rfl
  change ((liftM (children (layout.ends.push
      ⟨solver.classes.size, (solver.classes.push .free).size⟩) node) : Attempt TypeError _) >>= _) = _
  rw [own_eq, children_eq earlier, liftM_pure, pure_bind]
  change _ = (Solving.constrain layout.ends.size
    ⟨solver.classes.size, (solver.classes.push .free).size⟩ (layout.children node) _ >>= _)
  rw [own_eq]
  rfl

theorem mirrors_of_valid (valid : layout.Valid) (node : Node) :
    Mirrors layout.frontier
      (do
        let source ← Solving.of Solve.fresh
        let target ← Solving.of Solve.fresh
        Solving.constrain layout.ends.size ⟨source, target⟩ (layout.children node))
      (do
        let source ← Solve.fresh
        let target ← Solve.fresh
        Solve.constrain layout.ends.size ⟨source, target⟩ (layout.children node)) ()
      (layout.add node).frontier := by
  have rule := Mirrors.constrain layout.ends.size (Layout.Frontier.Valid.skip valid.word 2)
    layout.own_within (valid.children_within node)
  exact Mirrors.fresh.bind (Mirrors.fresh.bind rule)

/-- Node after node is given its variables before another one refers to them. -/
theorem constrainAll_eq {nodes : List Node} (valid : layout.Valid) (isAt : solver.At layout.frontier)
    (backward : ∀ offset (node : Node), nodes[offset]? = some node →
      ∀ child ∈ node.children, child ≤ layout.ends.size + offset) :
    constrainAll nodes layout.ends solver = .of (Typing.constrainAll nodes layout.ends solver) := by
  induction nodes generalizing layout solver with
  | nil => rfl
  | cons node nodes ih =>
      rw [constrainAll_cons nodes isAt (backward 0 node rfl), Layout.constrainAll_cons node nodes isAt,
        Attempt.of_bind]
      rcases mirrors_of_valid valid node solver isAt with ⟨agrees, reaches⟩
      rw [agrees]
      cases ran : (do
          let source ← Solve.fresh
          let target ← Solve.fresh
          Solve.constrain layout.ends.size ⟨source, target⟩ (layout.children node) : Solve Unit)
          solver with
      | error error => rfl
      | ok result =>
          rcases result with ⟨⟨⟩, solver'⟩
          apply ih (valid.add node) (reaches _ _ ran).2
          intro offset other found child member
          have le := backward (offset + 1) other found child member
          rw [Layout.size_ends_add]
          omega

theorem constrainRoot_eq (valid : layout.Valid) (isAt : solver.At layout.frontier) :
    constrainRoot layout.ends solver = .of (Typing.constrainRoot layout.ends solver) := by
  cases isLast : layout.ends.back? with
  | none =>
      rw [constrainRoot, Typing.constrainRoot, isLast]
      rfl
  | some root =>
      have member := Array.mem_of_back? isLast
      have rootWithin := valid.ends root member
      have nonempty : 1 ≤ layout.ends.size := Array.size_pos_of_mem member
      rw [constrainRoot, Typing.constrainRoot, isLast]
      simp only [minus_eq nonempty, liftM_pure, pure_bind]
      have first : Mirrors layout.frontier (Solving.bind root.source .unit (layout.ends.size - 1))
          (Solve.bind root.source .unit (layout.ends.size - 1)) () (layout.frontier.skip 1) :=
        .bound rootWithin.1 (by simp [Bound.parts])
      have second : Mirrors (layout.frontier.skip 1)
          (Solving.bind root.target .unit (layout.ends.size - 1))
          (Solve.bind root.target .unit (layout.ends.size - 1)) () (layout.frontier.skip 2) :=
        .bound (Nat.lt_succ_of_lt rootWithin.2) (by simp [Bound.parts])
      have both : Mirrors layout.frontier
          (do
            Solving.bind root.source .unit (layout.ends.size - 1)
            Solving.bind root.target .unit (layout.ends.size - 1))
          (do
            Solve.bind root.source .unit (layout.ends.size - 1)
            Solve.bind root.target .unit (layout.ends.size - 1)) () (layout.frontier.skip 2) :=
        first.bind second
      exact (both solver isAt).1

end Nodes

/-! ### Types -/

def resolveAll (classes : Classes) :
    List (Node × Ends) → Array Mark → Array (Option Arrow) →
      Attempt TypeError (Array (Option Arrow))
  | [], _, arrows => pure arrows
  | (node, ends) :: rest, marks, arrows =>
      if node.isHidden then
        resolveAll classes rest marks (arrows.push none)
      else do
        let (source, marks) ← resolve classes marks ends.source arrows.size
        let (target, marks) ← resolve classes marks ends.target arrows.size
        resolveAll classes rest marks (arrows.push (some ⟨source, target⟩))

def inferArrows (nodes : Array Node) : Attempt TypeError (Array (Option Arrow)) := do
  let (ends, solver) ← constrainAll nodes.toList #[] ⟨.empty, none⟩
  let ((), solver) ← constrainRoot ends solver
  let marks := Array.replicate solver.classes.size .unvisited
  resolveAll solver.classes (nodes.toList.zip ends.toList) marks #[]

theorem resolveAll_eq {classes : Classes} {marks : Array Mark} {pairs : List (Node × Ends)}
    {arrows : Array (Option Arrow)} (forest : classes.Forest)
    (settled : classes.Settled marks) (noneEntered : ∀ var, ¬ Entered marks var)
    (within : ∀ pair ∈ pairs, pair.2.Within classes.size) :
    resolveAll classes pairs marks arrows = .of (Typing.resolveAll classes pairs marks arrows) := by
  induction pairs generalizing marks arrows with
  | nil => rfl
  | cons pair pairs ih =>
      rcases pair with ⟨node, ends⟩
      rw [List.forall_mem_cons] at within
      rcases within with ⟨⟨sourceInside, targetInside⟩, within⟩
      rw [resolveAll, Typing.resolveAll]
      split
      case isTrue => exact ih settled noneEntered within
      case isFalse =>
        rw [resolve_eq arrows.size forest settled noneEntered sourceInside, Attempt.of_bind]
        rcases @Classes.resolve_spec classes arrows.size marks forest settled noneEntered ends.source
            sourceInside with
          ⟨source, marks₁, ran₁, settled₁, noneEntered₁, -⟩ | ⟨failed, -⟩
        case inr =>
          rw [failed]
          rfl
        rw [ran₁]
        simp only [Attempt.of_ok, pure_bind]
        rw [resolve_eq arrows.size forest settled₁ noneEntered₁ targetInside, Attempt.of_bind]
        rcases @Classes.resolve_spec classes arrows.size marks₁ forest settled₁ noneEntered₁
            ends.target targetInside with
          ⟨target, marks₂, ran₂, settled₂, noneEntered₂, -⟩ | ⟨failed, -⟩
        case inr =>
          rw [failed]
          rfl
        rw [ran₂]
        simp only [Attempt.of_ok, pure_bind]
        exact ih settled₂ noneEntered₂ within

/-- Inference finds an entry for every variable, if the children of each node come before it. -/
theorem inferArrows_eq (dag : Dag) :
    inferArrows dag.nodes = .of (Simplicity.inferArrows dag.nodes) := by
  have valid := Layout.valid_ofNodes dag.nodes.toList
  have backward : ∀ offset (node : Node), dag.nodes.toList[offset]? = some node →
      ∀ child ∈ node.children, child ≤ Layout.empty.ends.size + offset := by
    intro offset node found child member
    rw [Array.getElem?_toList] at found
    rcases Array.getElem?_eq_some_iff.mp found with ⟨inside, rfl⟩
    exact Nat.le_of_lt (Nat.lt_add_left _ (dag.backward offset inside child member))
  have constrains := constrainAll_eq Layout.valid_empty represents_empty.isAt backward
  rw [inferArrows, Simplicity.inferArrows, Attempt.of_bind]
  change (constrainAll dag.nodes.toList Layout.empty.ends ⟨.empty, none⟩ >>= _) =
    (Attempt.of (Typing.constrainAll dag.nodes.toList Layout.empty.ends ⟨.empty, none⟩) >>= _)
  rw [constrains]
  rcases Layout.constrainAll_spec Layout.valid_empty represents_empty with
    ⟨solver, ran, represents⟩ | ⟨before, node, after, -, ⟨left, right, failed⟩, -⟩
  case inr =>
    rw [failed]
    rfl
  have ran' : Typing.constrainAll dag.nodes.toList Layout.empty.ends ⟨.empty, none⟩ =
      .ok ((Layout.ofNodes dag.nodes.toList).ends, solver) := ran
  rw [ran']
  simp only [Attempt.of_ok, pure_bind, Attempt.of_bind]
  rw [constrainRoot_eq valid represents.isAt]
  rcases Layout.constrainRoot_spec valid represents with
    ⟨solver', ranRoot, representsRoot⟩ | ⟨⟨left, right, failed⟩, -⟩
  case inr =>
    rw [failed]
    rfl
  have solves := representsRoot.solves
  rw [ranRoot]
  exact resolveAll_eq solves.forest solver'.classes.settled_replicate
    solver'.classes.not_entered_replicate solves.pairs_within

end Checked

end Simplicity
