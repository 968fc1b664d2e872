import Simplicity.Proofs.Checked.Basic
import Simplicity.Proofs.Typing.Solution

/-!
# Checked classes

Everything that is known of variables stands in arrays that are indexed by them: parents, ranks, what
is known of a class, and how far the walk has come with it. In a forest all of these are as long as
there are variables, and parents and parts are variables again. So whatever starts with variables
that have been made never looks for an entry that is not there.
-/

namespace Simplicity

namespace Checked

open Typing

/-! ### Classes -/

def rankOf (classes : Classes) (var : Var) : Checked Nat :=
  read classes.rank var

def boundOf (classes : Classes) (var : Var) : Checked Bound :=
  read classes.bound var

def chase (parents : Array Var) : (fuel : Nat) → Var → Checked Var
  | 0, var => pure var
  | fuel + 1, var => do
      let parent ← read parents var
      if parent = var then return var else chase parents fuel parent

def shorten (root : Var) : (fuel : Nat) → Array Var → Var → Checked (Array Var)
  | 0, parents, _ => pure parents
  | fuel + 1, parents, var => do
      let next ← read parents var
      if next = root then return parents
      else shorten root fuel (← write parents var root) next

def rootOf (classes : Classes) (var : Var) : Checked Var :=
  chase classes.parent classes.parent.size var

def find (classes : Classes) (var : Var) : Checked (Var × Classes) := do
  let root ← rootOf classes var
  let parents ← shorten root classes.parent.size classes.parent var
  return (root, { classes with parent := parents })

def link (classes : Classes) (left right : Var) (bound : Bound) : Checked Classes := do
  let leftRank ← rankOf classes left
  let rightRank ← rankOf classes right
  if leftRank < rightRank then
    let parents ← write classes.parent left right
    let bounds ← write classes.bound right bound
    return ⟨parents, classes.rank, bounds⟩
  else
    let ranks ← if leftRank = rightRank then write classes.rank left (leftRank + 1)
      else pure classes.rank
    let parents ← write classes.parent right left
    let bounds ← write classes.bound left bound
    return ⟨parents, ranks, bounds⟩

def unifyAll (node : Nat) : (fuel : Nat) → List (Var × Var) → Classes → Attempt TypeError Classes
  | 0, _, classes => pure classes
  | _ + 1, [], classes => pure classes
  | fuel + 1, (left, right) :: work, classes => do
      let (left, classes) ← find classes left
      let (right, classes) ← find classes right
      if left = right then
        unifyAll node fuel work classes
      else
        let leftBound ← boundOf classes left
        let rightBound ← boundOf classes right
        match leftBound.merge? rightBound with
        | none => throw (.unify node leftBound.shape rightBound.shape)
        | some (bound, more) => unifyAll node fuel (more ++ work) (← link classes left right bound)

def unify (classes : Classes) (left right : Var) (node : Nat) : Attempt TypeError Classes :=
  unifyAll node (2 * classes.size + 1) [(left, right)] classes

def bind (classes : Classes) (var : Var) (bound : Bound) (node : Nat) :
    Attempt TypeError Classes :=
  unify (classes.push bound) var classes.size node

section Classes

variable {parents : Array Var} {classes : Classes} {left right root var : Var} {bound : Bound}

theorem read_parent_eq (inside : var < parents.size) :
    read parents var = pure (parentOf parents var) :=
  read_eq_getD inside var

theorem chase_eq (closed : ∀ var < parents.size, parentOf parents var < parents.size)
    (inside : var < parents.size) (fuel : Nat) :
    chase parents fuel var = pure (Typing.chase parents fuel var) := by
  induction fuel generalizing var with
  | zero => rfl
  | succ fuel ih =>
      rw [chase, Typing.chase, read_parent_eq inside, pure_bind]
      split
      case isTrue => rfl
      case isFalse => exact ih (closed var inside)

theorem shorten_eq (closed : ∀ var < parents.size, parentOf parents var < parents.size)
    (rootInside : root < parents.size) (inside : var < parents.size) (fuel : Nat) :
    shorten root fuel parents var = pure (Typing.shorten root fuel parents var) := by
  induction fuel generalizing parents var with
  | zero => rfl
  | succ fuel ih =>
      rw [shorten, Typing.shorten, read_parent_eq inside, pure_bind]
      split
      case isTrue => rfl
      case isFalse =>
        rw [write_eq inside, pure_bind]
        apply ih
        -- The variable has been put below the root, and all others are below what they were.
        · intro other otherInside
          rw [Array.size_setIfInBounds] at otherInside ⊢
          rw [Classes.parentOf_setIfInBounds _ _ _ _ inside]
          split
          · exact rootInside
          · exact closed other otherInside
        · rwa [Array.size_setIfInBounds]
        · rw [Array.size_setIfInBounds]
          exact closed var inside

theorem rootOf_eq (forest : classes.Forest) (inside : var < classes.size) :
    rootOf classes var = pure (classes.root var) :=
  chase_eq forest.parent_lt inside _

theorem find_eq (forest : classes.Forest) (inside : var < classes.size) :
    find classes var = pure (classes.find var) := by
  rw [find, rootOf_eq forest inside, pure_bind,
    shorten_eq forest.parent_lt (forest.root_lt inside) inside]
  rfl

theorem boundOf_eq (forest : classes.Forest) (inside : var < classes.size) :
    boundOf classes var = pure (classes.boundOf var) := by
  have inside' : var < classes.bound.size := forest.bound_size ▸ inside
  exact read_eq_getD inside' .free

theorem rankOf_eq (forest : classes.Forest) (inside : var < classes.size) :
    rankOf classes var = pure (classes.rankOf var) := by
  have inside' : var < classes.rank.size := forest.rank_size ▸ inside
  exact read_eq_getD inside' 0

theorem link_eq (forest : classes.Forest) (insideLeft : left < classes.size)
    (insideRight : right < classes.size) (bound : Bound) :
    link classes left right bound = pure (classes.link left right bound) := by
  have ranksLeft : left < classes.rank.size := forest.rank_size ▸ insideLeft
  have boundsLeft : left < classes.bound.size := forest.bound_size ▸ insideLeft
  have boundsRight : right < classes.bound.size := forest.bound_size ▸ insideRight
  rw [link, Classes.link, rankOf_eq forest insideLeft, rankOf_eq forest insideRight]
  simp only [pure_bind]
  split
  case isTrue => simp only [write_eq insideLeft, write_eq boundsRight, pure_bind]
  case isFalse =>
    split <;> simp only [write_eq ranksLeft, write_eq insideRight, write_eq boundsLeft, pure_bind]

theorem unifyAll_eq (node : Nat) {fuel : Nat} {work : List (Var × Var)} (forest : classes.Forest)
    (inside : ∀ pair ∈ work, pair.1 < classes.size ∧ pair.2 < classes.size) :
    unifyAll node fuel work classes = .of (Classes.unifyAll node fuel work classes) := by
  induction fuel generalizing work classes with
  | zero => rfl
  | succ fuel ih =>
      rcases work with _ | ⟨⟨left, right⟩, work⟩
      · rfl
      rw [List.forall_mem_cons] at inside
      rcases inside with ⟨⟨insideLeft, insideRight⟩, inside⟩
      rcases forest.find_spec left with ⟨first_eq, first⟩
      rcases first.forest.find_spec right with ⟨second_eq, second⟩
      have agrees := first.trans second
      rw [unifyAll, find_eq forest insideLeft]
      simp only [liftM_pure, pure_bind]
      rw [find_eq first.forest (first.size_eq ▸ insideRight)]
      simp only [liftM_pure, pure_bind, Classes.unifyAll, first_eq, second_eq, first.root_eq,
        ← agrees.root_eq]
      -- Only the classes with shortened paths matter from here on.
      rw [← agrees.size_eq] at inside insideLeft insideRight
      have forest := agrees.forest
      generalize ((classes.find left).2.find right).2 = found at forest inside insideLeft insideRight ⊢
      split
      case isTrue => exact ih forest inside
      case isFalse differ =>
        have rootInsideLeft := forest.root_lt insideLeft
        have rootInsideRight := forest.root_lt insideRight
        simp only [boundOf_eq forest rootInsideLeft, boundOf_eq forest rootInsideRight,
          liftM_pure, pure_bind]
        cases merged : (found.boundOf (found.root left)).merge? (found.boundOf (found.root right)) with
        | none => rfl
        | some result =>
            rcases result with ⟨bound, more⟩
            rcases Classes.parts_of_merge? merged (forest.parts_lt _ rootInsideLeft)
              (forest.parts_lt _ rootInsideRight) with ⟨parts_lt, more_lt⟩
            rcases forest.link_spec rootInsideLeft rootInsideRight (forest.root_root left)
              (forest.root_root right) differ parts_lt with ⟨winner, links⟩
            simp only [link_eq forest rootInsideLeft rootInsideRight, liftM_pure, pure_bind]
            apply ih links.forest
            rw [links.size_eq, List.forall_mem_append]
            exact ⟨more_lt, inside⟩

theorem unify_eq (node : Nat) (forest : classes.Forest) (insideLeft : left < classes.size)
    (insideRight : right < classes.size) :
    unify classes left right node = .of (classes.unify left right node) :=
  unifyAll_eq node forest (by simp [insideLeft, insideRight])

theorem bind_eq (node : Nat) (forest : classes.Forest) (inside : var < classes.size)
    (parts_lt : ∀ part ∈ bound.parts, part < classes.size) :
    bind classes var bound node = .of (classes.bind var bound node) := by
  apply unify_eq node (forest.push parts_lt)
  · rw [Classes.Forest.size_push]
    exact Nat.lt_succ_of_lt inside
  · rw [Classes.Forest.size_push]
    exact Nat.lt_succ_self _

end Classes

/-! ### Types -/

def markOf (marks : Array Mark) (var : Var) : Checked Mark :=
  read marks var

def typeAt (classes : Classes) (marks : Array Mark) (var : Var) : Checked Ty := do
  let mark ← markOf marks (← rootOf classes var)
  return mark.ty

def typeOfBound (classes : Classes) (marks : Array Mark) : Bound → Checked Ty
  | .free | .unit => return .unit
  | .sum left right => return .sum (← typeAt classes marks left) (← typeAt classes marks right)
  | .prod left right => return .prod (← typeAt classes marks left) (← typeAt classes marks right)

/-- The roots of the parts of a class. -/
def partRoots (classes : Classes) (var : Var) : Checked (List Var) := do
  let bound ← boundOf classes var
  bound.parts.mapM (rootOf classes)

def walk (classes : Classes) (node : Nat) :
    (fuel : Nat) → List Visit → Array Mark → Attempt TypeError (Array Mark)
  | 0, _, marks => pure marks
  | _ + 1, [], marks => pure marks
  | fuel + 1, .leave var :: rest, marks => do
      let bound ← boundOf classes var
      let ty ← typeOfBound classes marks bound
      walk classes node fuel rest (← write marks var (.done ty))
  | fuel + 1, .enter var :: rest, marks => do
      match ← markOf marks var with
      | .done _ => walk classes node fuel rest marks
      | .inProgress => throw (.occursCheck node)
      | .unvisited =>
          let parts ← partRoots classes var
          walk classes node fuel (parts.map .enter ++ .leave var :: rest)
            (← write marks var .inProgress)

def resolve (classes : Classes) (marks : Array Mark) (var : Var) (node : Nat) :
    Attempt TypeError (Ty × Array Mark) := do
  let root ← rootOf classes var
  let marks ← walk classes node (3 * classes.size + 1) [.enter root] marks
  let mark ← markOf marks root
  return (mark.ty, marks)

section Types

variable {classes : Classes} {marks : Array Mark} {var : Var}

theorem markOf_eq (inside : var < marks.size) :
    markOf marks var = pure (marks.getD var .unvisited) :=
  read_eq_getD inside .unvisited

theorem typeAt_eq (forest : classes.Forest) (marks_size : marks.size = classes.size)
    (inside : var < classes.size) :
    typeAt classes marks var = pure (classes.typeAt marks var) := by
  have rootInside : classes.root var < marks.size := marks_size ▸ forest.root_lt inside
  rw [typeAt, rootOf_eq forest inside, pure_bind, markOf_eq rootInside, pure_bind]
  rfl

theorem typeOfBound_eq (forest : classes.Forest) (marks_size : marks.size = classes.size)
    {bound : Bound} (inside : ∀ part ∈ bound.parts, part < classes.size) :
    typeOfBound classes marks bound = pure (classes.typeOfBound marks bound) := by
  cases bound with
  | free | unit => rfl
  | sum left right | prod left right =>
      have insideLeft := inside left (.head _)
      have insideRight := inside right (.tail _ (.head _))
      simp only [typeOfBound, typeAt_eq forest marks_size insideLeft,
        typeAt_eq forest marks_size insideRight, pure_bind]
      rfl

theorem partRoots_eq (forest : classes.Forest) (inside : var < classes.size) :
    partRoots classes var = pure ((classes.boundOf var).parts.map classes.root) := by
  rw [partRoots, boundOf_eq forest inside, pure_bind]
  apply mapM_eq_map
  intro part isPart
  exact rootOf_eq forest (forest.parts_lt var inside part isPart)

theorem walk_eq (node : Nat) {fuel : Nat} {visits : List Visit} (forest : classes.Forest)
    (marks_size : marks.size = classes.size)
    (inside : ∀ visit ∈ visits, visit.vertex < classes.size) :
    walk classes node fuel visits marks = .of (classes.walk node fuel visits marks) := by
  induction fuel generalizing visits marks with
  | zero => rfl
  | succ fuel ih =>
      rcases visits with _ | ⟨visit, rest⟩
      · rfl
      rw [List.forall_mem_cons] at inside
      rcases inside with ⟨varInside, restInside⟩
      cases visit with
      | leave var =>
          change var < classes.size at varInside
          have varInside' : var < marks.size := marks_size ▸ varInside
          rw [walk, boundOf_eq forest varInside]
          simp only [liftM_pure, pure_bind,
            typeOfBound_eq forest marks_size (forest.parts_lt var varInside), write_eq varInside']
          exact ih (by rw [Array.size_setIfInBounds, marks_size]) restInside
      | enter var =>
          change var < classes.size at varInside
          have varInside' : var < marks.size := marks_size ▸ varInside
          rw [walk, markOf_eq varInside', Classes.walk]
          simp only [liftM_pure, pure_bind]
          cases marks.getD var .unvisited with
          | done ty => exact ih marks_size restInside
          | inProgress => rfl
          | unvisited =>
              simp only [partRoots_eq forest varInside, write_eq varInside', liftM_pure, pure_bind,
                List.map_map]
              apply ih
              · rw [Array.size_setIfInBounds, marks_size]
              · rw [List.forall_mem_append, List.forall_mem_cons, List.forall_mem_map]
                refine ⟨?_, varInside, restInside⟩
                intro part isPart
                exact forest.root_lt (forest.parts_lt var varInside part isPart)

theorem resolve_eq (node : Nat) (forest : classes.Forest) (settled : classes.Settled marks)
    (noneEntered : ∀ var, ¬ Entered marks var) (inside : var < classes.size) :
    resolve classes marks var node = .of (classes.resolve marks var node) := by
  have rootInside := forest.root_lt inside
  have walks := @walk_eq classes marks node (3 * classes.size + 1) [.enter (classes.root var)] forest
    settled.size_eq (List.forall_mem_singleton.mpr rootInside)
  rw [resolve, rootOf_eq forest inside, Classes.resolve]
  simp only [liftM_pure, pure_bind, walks]
  cases ran : classes.walk node (3 * classes.size + 1) [.enter (classes.root var)] marks with
  | error error => rfl
  | ok found =>
      have resolved : classes.resolve marks var node =
          .ok ((found.getD (classes.root var) .unvisited).ty, found) := by
        rw [Classes.resolve, ran]
        rfl
      rcases @Classes.resolve_spec classes node marks forest settled noneEntered var inside with
        ⟨_, _, ran', settled', -⟩ | ⟨failed, -⟩
      · rw [resolved] at ran'
        cases ran'
        have rootInside' : classes.root var < found.size := settled'.size_eq ▸ rootInside
        simp only [Attempt.of_ok, pure_bind, markOf_eq rootInside', liftM_pure]
        rfl
      · rw [resolved] at failed
        cases failed

end Types

end Checked

end Simplicity
