import Mathlib.Logic.Relation
import Simplicity.Proofs.Typing.Ranks
import Simplicity.Typing.Constraint

/-!
# Rounds of unification

Unification goes in rounds, and each round takes one pair from those that wait. The pair is dropped if
its variables have one root, and otherwise their roots are linked, which leaves one class fewer and may
add two pairs. Bounds may be cyclic, so that pairs come up that were there before. Still there is no
endless sequence of rounds: with a class counted for two pairs, what waits gets less in every round. So
the fuel of `unifyAll` is only a way to write the loop down, and `unify` gives what the rounds come to.

A state of the solver is reachable if calls lead to it, each of them on variables that are there by
then. In all reachable states, and between the rounds of unification, the classes are a forest whose
ranks are bounded by the sizes of classes.
-/

namespace Simplicity.Typing

open Relation (ReflTransGen)

/-- The pairs of variables that wait, and the classes that have been found so far. -/
structure Pending where
  work : List (Var × Var)
  classes : Classes

namespace Pending

/-- The variables of the next pair have one root, and the pair is dropped. -/
inductive Drops : Pending → Pending → Prop where
  | drop {left right root : Var} {work : List (Var × Var)} {classes first second : Classes}
      (findLeft : classes.find left = (root, first))
      (findRight : first.find right = (root, second)) :
      Drops ⟨(left, right) :: work, classes⟩ ⟨work, second⟩

/-- The variables of the next pair have two roots, which are linked. The pairs of parts wait from then
on, before all others. -/
inductive Joins (link : Classes → Var → Var → Bound → Classes) : Pending → Pending → Prop where
  | join {left right leftRoot rightRoot : Var} {work more : List (Var × Var)} {bound : Bound}
      {classes first second : Classes} (findLeft : classes.find left = (leftRoot, first))
      (findRight : first.find right = (rightRoot, second)) (differ : leftRoot ≠ rightRoot)
      (merged : (second.boundOf leftRoot).merge? (second.boundOf rightRoot) = some (bound, more)) :
      Joins link ⟨(left, right) :: work, classes⟩
        ⟨more ++ work, link second leftRoot rightRoot bound⟩

/-- A round takes the next pair, and drops it or joins its classes. -/
def Round (pending next : Pending) : Prop :=
  pending.Drops next ∨ pending.Joins Classes.link next

/-- There is no further round: no pair is left, or the bounds of the next pair do not go together. -/
inductive Stops (node : Nat) : Pending → Except TypeError Classes → Prop where
  | done (classes : Classes) : Stops node ⟨[], classes⟩ (.ok classes)
  | clash {left right leftRoot rightRoot : Var} {work : List (Var × Var)}
      {classes first second : Classes} (findLeft : classes.find left = (leftRoot, first))
      (findRight : first.find right = (rightRoot, second)) (differ : leftRoot ≠ rightRoot)
      (clash : (second.boundOf leftRoot).merge? (second.boundOf rightRoot) = none) :
      Stops node ⟨(left, right) :: work, classes⟩
        (.error (.unify node (second.boundOf leftRoot).shape (second.boundOf rightRoot).shape))

/-- Ranks are as they should be, and the pairs are of variables that are there. -/
structure Valid (pending : Pending) : Prop where
  ranked : pending.classes.Ranked
  inside : ∀ pair ∈ pending.work, pair.1 < pending.classes.size ∧ pair.2 < pending.classes.size

/-- How much there is to do: a class counts for the two pairs that joining it may add. -/
def weight (pending : Pending) : Nat :=
  pending.work.length + 2 * pending.classes.count

variable {pending next : Pending} {node fuel : Nat} {result : Except TypeError Classes}

/-- Each pair leads to a round, or there is no further one. -/
theorem stops_or_round (node : Nat) (pending : Pending) :
    (∃ result, pending.Stops node result) ∨ ∃ next, pending.Round next := by
  rcases pending with ⟨_ | ⟨⟨left, right⟩, work⟩, classes⟩
  · exact .inl ⟨_, .done classes⟩
  rcases findLeft : classes.find left with ⟨leftRoot, first⟩
  rcases findRight : first.find right with ⟨rightRoot, second⟩
  by_cases same : leftRoot = rightRoot
  · subst same
    exact .inr ⟨_, .inl (.drop findLeft findRight)⟩
  · cases merged : (second.boundOf leftRoot).merge? (second.boundOf rightRoot) with
    | none => exact .inl ⟨_, .clash findLeft findRight same merged⟩
    | some result => exact .inr ⟨_, .inr (.join findLeft findRight same merged)⟩

theorem unifyAll_of_round (round : pending.Round next) :
    Classes.unifyAll node (fuel + 1) pending.work pending.classes =
      Classes.unifyAll node fuel next.work next.classes := by
  rcases round with ⟨findLeft, findRight⟩ | ⟨findLeft, findRight, differ, merged⟩
  · simp only [Classes.unifyAll, findLeft, findRight, if_true]
  · simp only [Classes.unifyAll, findLeft, findRight, differ, if_false, merged]

theorem unifyAll_of_stops (stops : pending.Stops node result) :
    Classes.unifyAll node (fuel + 1) pending.work pending.classes = result := by
  cases stops with
  | done => rfl
  | clash findLeft findRight differ clash =>
      simp only [Classes.unifyAll, findLeft, findRight, differ, if_false, clash]

section Finds

variable {classes first second : Classes} {left right leftRoot rightRoot : Var}

/-- Finding the roots of a pair gives its roots and leaves the classes as they are. -/
theorem agrees_of_finds (forest : classes.Forest) (findLeft : classes.find left = (leftRoot, first))
    (findRight : first.find right = (rightRoot, second)) :
    classes.Agrees second ∧ second.root left = leftRoot ∧ second.root right = rightRoot := by
  rcases forest.find_spec left with ⟨leftRoot_eq, agrees⟩
  rw [findLeft] at leftRoot_eq agrees
  rcases agrees.forest.find_spec right with ⟨rightRoot_eq, agrees'⟩
  rw [findRight] at rightRoot_eq agrees'
  simp only at leftRoot_eq rightRoot_eq
  refine ⟨agrees.trans agrees', ?_, ?_⟩
  · rw [leftRoot_eq, agrees'.root_eq, agrees.root_eq]
  · rw [rightRoot_eq, agrees'.root_eq]

end Finds

/-- What a round leaves behind. -/
structure Follows (pending next : Pending) : Prop where
  valid : next.Valid
  size_eq : next.classes.size = pending.classes.size

/-- Dropping a pair leaves one pair fewer and all classes. -/
theorem Drops.spec (valid : pending.Valid) (drops : pending.Drops next) :
    pending.Follows next ∧ next.classes.count = pending.classes.count ∧
      next.work.length + 1 = pending.work.length := by
  rcases drops with ⟨findLeft, findRight⟩
  rcases agrees_of_finds valid.ranked.forest findLeft findRight with ⟨agrees, -, -⟩
  refine ⟨⟨⟨valid.ranked.agrees agrees, ?_⟩, agrees.size_eq⟩, agrees.count_eq, rfl⟩
  intro pair member
  simp only at member ⊢
  rw [agrees.size_eq]
  exact valid.inside pair (.tail _ member)

/-- Joining two classes leaves one class fewer and at most one pair more. -/
theorem Joins.spec (valid : pending.Valid) (joins : pending.Joins Classes.link next) :
    pending.Follows next ∧ next.classes.count + 1 = pending.classes.count ∧
      next.work.length ≤ pending.work.length + 1 := by
  rcases joins with @⟨left, right, leftRoot, rightRoot, work, more, bound, classes, first, second,
    findLeft, findRight, differ, merged⟩
  rcases agrees_of_finds valid.ranked.forest findLeft findRight with ⟨agrees, rfl, rfl⟩
  have ranked := valid.ranked.agrees agrees
  have forest := ranked.forest
  have inside := List.forall_mem_cons.mp valid.inside
  simp only [← agrees.size_eq] at inside
  have insideLeft := forest.root_lt inside.1.1
  have insideRight := forest.root_lt inside.1.2
  have rootLeft := forest.root_root left
  have rootRight := forest.root_root right
  rcases Classes.parts_of_merge? merged (forest.parts_lt _ insideLeft)
    (forest.parts_lt _ insideRight) with ⟨parts_lt, more_lt⟩
  rcases forest.link_spec insideLeft insideRight rootLeft rootRight differ parts_lt with
    ⟨winner, links⟩
  have fewer := links.count_eq insideLeft insideRight rootLeft rootRight differ
  refine ⟨⟨⟨?_, ?_⟩, links.size_eq.trans agrees.size_eq⟩, fewer.trans agrees.count_eq, ?_⟩
  · exact ranked.link insideLeft insideRight rootLeft rootRight differ parts_lt
  · simp only [links.size_eq, List.forall_mem_append]
    exact ⟨more_lt, inside.2⟩
  · have short := Classes.length_of_merge? merged
    simp only [List.length_append, List.length_cons]
    omega

theorem Round.follows (valid : pending.Valid) (round : pending.Round next) :
    pending.Follows next := by
  rcases round with drops | joins
  · exact (drops.spec valid).1
  · exact (joins.spec valid).1

theorem Round.weight_lt (valid : pending.Valid) (round : pending.Round next) :
    next.weight < pending.weight := by
  rcases round with drops | joins
  · have spec := (drops.spec valid).2
    simp only [weight]
    omega
  · have spec := (joins.spec valid).2
    simp only [weight]
    omega

/-- What rounds keep. -/
theorem Valid.follows_of_rounds (valid : pending.Valid) (rounds : ReflTransGen Round pending next) :
    pending.Follows next := by
  induction rounds with
  | refl => exact ⟨valid, rfl⟩
  | tail _ round ih =>
      have follows := round.follows ih.valid
      exact ⟨follows.valid, follows.size_eq.trans ih.size_eq⟩

/-- There is no endless sequence of rounds. -/
theorem Valid.acc (valid : pending.Valid) :
    Acc (fun next pending : Pending => pending.Round next) pending := by
  induction bound : pending.weight using Nat.strongRecOn generalizing pending with
  | ind bound ih =>
      subst bound
      refine ⟨pending, ?_⟩
      intro next round
      exact ih next.weight (round.weight_lt valid) (round.follows valid).valid rfl

/-- As long as the fuel covers what there is to do, it makes no difference to unification. -/
theorem Valid.exists_stops (node : Nat) (valid : pending.Valid) (enough : pending.weight ≤ fuel) :
    ∃ last, ReflTransGen Round pending last ∧
      last.Stops node (Classes.unifyAll node fuel pending.work pending.classes) := by
  induction fuel generalizing pending with
  | zero =>
      rcases pending with ⟨work, classes⟩
      simp only [weight, Nat.le_zero, Nat.add_eq_zero_iff, List.length_eq_zero_iff] at enough
      obtain ⟨rfl, -⟩ := enough
      exact ⟨_, .refl, .done classes⟩
  | succ fuel ih =>
      rcases pending.stops_or_round node with ⟨result, stops⟩ | ⟨next, round⟩
      · rw [unifyAll_of_stops stops]
        exact ⟨pending, .refl, stops⟩
      · have lighter := round.weight_lt valid
        rcases ih (round.follows valid).valid (by omega) with ⟨last, rounds, stops⟩
        rw [unifyAll_of_round round]
        exact ⟨last, .head round rounds, stops⟩

/-- As long as there are fewer than `2 ^ 64` variables, bytes are enough for ranks. -/
theorem Valid.joins_linkByte_iff (valid : pending.Valid) (few : pending.classes.size < 2 ^ 64) :
    pending.Joins Classes.linkByte next ↔ pending.Joins Classes.link next := by
  have low : ∀ {left right leftRoot rightRoot : Var} {work : List (Var × Var)}
      {classes first second : Classes} {bound : Bound}, pending = ⟨(left, right) :: work, classes⟩ →
      classes.find left = (leftRoot, first) → first.find right = (rightRoot, second) →
      second.linkByte leftRoot rightRoot bound = second.link leftRoot rightRoot bound := by
    rintro left right leftRoot rightRoot work classes first second bound rfl findLeft findRight
    rcases agrees_of_finds valid.ranked.forest findLeft findRight with ⟨agrees, rfl, -⟩
    have ranked := valid.ranked.agrees agrees
    have inside := (List.forall_mem_cons.mp valid.inside).1.1
    rw [← agrees.size_eq] at few inside
    apply Classes.linkByte_eq
    exact Nat.lt_trans (ranked.rank_lt few (ranked.forest.root_lt inside)) (by decide)
  constructor
  · rintro ⟨findLeft, findRight, differ, merged⟩
    rw [low rfl findLeft findRight]
    exact .join findLeft findRight differ merged
  · rintro ⟨findLeft, findRight, differ, merged⟩
    rw [← low rfl findLeft findRight]
    exact .join findLeft findRight differ merged

end Pending

namespace Classes

variable {classes unified : Classes} {left right node : Nat}

/-- The pair that unification starts from. -/
theorem Ranked.valid (ranked : classes.Ranked) (insideLeft : left < classes.size)
    (insideRight : right < classes.size) : Pending.Valid ⟨[(left, right)], classes⟩ :=
  ⟨ranked, by simp [insideLeft, insideRight]⟩

/-- Unification comes to what its rounds come to. -/
theorem Ranked.exists_stops (ranked : classes.Ranked) (insideLeft : left < classes.size)
    (insideRight : right < classes.size) (node : Nat) :
    ∃ last, ReflTransGen Pending.Round ⟨[(left, right)], classes⟩ last ∧
      last.Stops node (classes.unify left right node) := by
  apply (ranked.valid insideLeft insideRight).exists_stops
  have few := classes.count_le_size
  simp only [Pending.weight, List.length_singleton]
  omega

theorem Ranked.of_unify (ranked : classes.Ranked) (insideLeft : left < classes.size)
    (insideRight : right < classes.size) (ran : classes.unify left right node = .ok unified) :
    unified.Ranked := by
  rcases ranked.exists_stops insideLeft insideRight node with ⟨last, rounds, stops⟩
  have follows := (ranked.valid insideLeft insideRight).follows_of_rounds rounds
  rw [ran] at stops
  cases stops
  exact follows.valid.ranked

end Classes

/-- A call of one of the operations on the solver. -/
inductive Call where
  | var (bound : Bound)
  | find (target : Var)
  | unify (left right : Var) (node : Nat)
  | bind (target : Var) (bound : Bound) (node : Nat)
  | word256

namespace Call

/-- Calls an operation, and looks only at what it does to the solver. -/
def run : Call → Solve Unit
  | .var bound => do let _ ← Solve.var bound
  | .find target => modify fun solver => { solver with classes := (solver.classes.find target).2 }
  | .unify left right node => Solve.unify left right node
  | .bind target bound node => Solve.bind target bound node
  | .word256 => do let _ ← Solve.word256

/-- The variables of a call are there. -/
def Within (size : Nat) : Call → Prop
  | .var bound => ∀ part ∈ bound.parts, part < size
  | .find target => target < size
  | .unify left right _ => left < size ∧ right < size
  | .bind target bound _ => target < size ∧ ∀ part ∈ bound.parts, part < size
  | .word256 => True

instance (size : Nat) : (call : Call) → Decidable (call.Within size)
  | .var bound => inferInstanceAs (Decidable (∀ part ∈ bound.parts, part < size))
  | .find target => inferInstanceAs (Decidable (target < size))
  | .unify left right _ => inferInstanceAs (Decidable (left < size ∧ right < size))
  | .bind target bound _ =>
      inferInstanceAs (Decidable (target < size ∧ ∀ part ∈ bound.parts, part < size))
  | .word256 => inferInstanceAs (Decidable True)

end Call

/-- Calls that succeed, on variables that are there, lead from no variables at all to the solver. -/
inductive Solver.Reachable : Solver → Prop where
  | start : Reachable ⟨.empty, none⟩
  | call {solver solver' : Solver} (reachable : Reachable solver) (call : Call)
      (within : call.Within solver.classes.size) (ran : call.run solver = .ok ((), solver')) :
      Reachable solver'

namespace Solver

variable {solver solver' : Solver}

theorem ranked_of_double {times : Nat} {word doubled : Var} (ranked : solver.classes.Ranked)
    (inside : word < solver.classes.size)
    (ran : Solve.double times word solver = .ok (doubled, solver')) : solver'.classes.Ranked := by
  induction times generalizing word solver with
  | zero =>
      cases ran
      exact ranked
  | succ times ih =>
      have parts_lt : ∀ part ∈ (Bound.prod word word).parts, part < solver.classes.size := by
        simpa [Bound.parts] using inside
      refine ih (ranked.push parts_lt) ?_ ran
      rw [Classes.Forest.size_push]
      exact Nat.lt_succ_self _

/-- The unit type and the type of a bit come first, and the latter is doubled. -/
theorem word256_eq_bind (classes : Classes) :
    Solve.word256 ⟨classes, none⟩ =
      (Solve.double 8 (classes.size + 1)
        ⟨(classes.push .unit).push (.sum classes.size classes.size), none⟩).bind
          fun (word, solver) => .ok (word, { solver with word := some word }) := by
  rw [← Classes.Forest.size_push classes .unit]
  rfl

theorem ranked_of_word256 {word : Var} (ranked : solver.classes.Ranked)
    (ran : Solve.word256 solver = .ok (word, solver')) : solver'.classes.Ranked := by
  rcases solver with ⟨classes, _ | known⟩
  · have unit : (classes.push .unit).Ranked := ranked.push (by simp [Bound.parts])
    have bit : ((classes.push .unit).push (.sum classes.size classes.size)).Ranked :=
      unit.push (by simp [Bound.parts])
    have inside : classes.size + 1 <
        ((classes.push .unit).push (.sum classes.size classes.size)).size := by
      simp
    rw [word256_eq_bind] at ran
    cases doubles : Solve.double 8 (classes.size + 1)
        ⟨(classes.push .unit).push (.sum classes.size classes.size), none⟩ with
    | error error =>
        rw [doubles] at ran
        cases ran
    | ok result =>
        rcases result with ⟨doubled, between⟩
        have ranked' : between.classes.Ranked := ranked_of_double bit inside doubles
        rw [doubles] at ran
        cases ran
        exact ranked'
  · cases ran
    exact ranked

theorem ranked_of_call {call : Call} (ranked : solver.classes.Ranked)
    (within : call.Within solver.classes.size) (ran : call.run solver = .ok ((), solver')) :
    solver'.classes.Ranked := by
  cases call with
  | var bound =>
      cases ran
      exact ranked.push within
  | find target =>
      cases ran
      exact ranked.agrees (ranked.forest.find_spec target).2
  | unify left right node =>
      simp only [Call.run, Solve.unify] at ran
      split at ran
      case h_1 unified unifies =>
        cases ran
        exact ranked.of_unify within.1 within.2 unifies
      case h_2 => cases ran
  | bind target bound node =>
      simp only [Call.run, Solve.bind] at ran
      split at ran
      case h_1 unified binds =>
        cases ran
        have inside : target < (solver.classes.push bound).size ∧
            solver.classes.size < (solver.classes.push bound).size := by
          rw [Classes.Forest.size_push]
          exact ⟨Nat.lt_succ_of_lt within.1, Nat.lt_succ_self _⟩
        exact (ranked.push within.2).of_unify inside.1 inside.2 binds
      case h_2 => cases ran
  | word256 =>
      cases called : Solve.word256 solver with
      | error error =>
          simp only [Call.run, bind, StateT.bind, called] at ran
          cases ran
      | ok result =>
          rcases result with ⟨word, between⟩
          have ranked' := ranked_of_word256 ranked called
          simp only [Call.run, bind, StateT.bind, called] at ran
          cases ran
          exact ranked'

namespace Reachable

/-- Calls keep classes as large as ranks say. -/
theorem ranked (reachable : Reachable solver) : solver.classes.Ranked := by
  induction reachable with
  | start => exact .empty
  | call _ call within ran ih => exact ranked_of_call ih within ran

/-- In every solver that calls lead to, chains of parents end, ranks increase along them, and a class has
at least as many variables as two to the rank of its root; so with fewer than `2 ^ 64` variables a rank
stays below 64. Finding a root follows the chain to its end and puts its variables directly below it,
which changes neither where chains end nor any bound. Unification comes to an end after finitely many
rounds, whatever the bounds are, and every round in which two roots are linked leaves one class fewer.
That a rank is kept in a byte never makes a difference to such a round. -/
theorem chains_end_and_unify_stops (reachable : Reachable solver) :
    let classes := solver.classes
    (∀ var < classes.size, ChainEnds classes.parent var (classes.root var) ∧
      ∀ parent, classes.parent[var]? = some parent →
        (parent ≠ var → classes.rankOf var < classes.rankOf parent) ∧
        (parent = var → 2 ^ classes.rankOf var ≤ (classes.members var).card)) ∧
    (classes.size < 2 ^ 64 → ∀ var < classes.size, classes.rankOf var < 64) ∧
    (∀ var < classes.size,
      let root := (classes.find var).1
      let found := (classes.find var).2
      ChainEnds classes.parent var root ∧ Classes.Shortens classes.parent var root found.parent ∧
      (∀ other < classes.size, ∀ top,
        ChainEnds found.parent other top ↔ ChainEnds classes.parent other top) ∧
      found.rank = classes.rank ∧ found.bound = classes.bound) ∧
    ∀ node, ∀ left < classes.size, ∀ right < classes.size,
      let start : Pending := ⟨[(left, right)], classes⟩
      Acc (fun next pending : Pending => pending.Round next) start ∧
      (∃ last, ReflTransGen Pending.Round start last ∧
        last.Stops node (classes.unify left right node)) ∧
      ∀ pending, ReflTransGen Pending.Round start pending → ∀ next : Pending,
        (pending.Drops next → next.classes.count = pending.classes.count) ∧
        (pending.Joins Classes.link next → next.classes.count + 1 = pending.classes.count) ∧
        (classes.size < 2 ^ 64 →
          (pending.Joins Classes.linkByte next ↔ pending.Joins Classes.link next)) := by
  have ranked := reachable.ranked
  have forest := ranked.forest
  refine ⟨?_, ?_, ?_, ?_⟩
  · intro var inside
    refine ⟨forest.chainEnds inside, ?_⟩
    intro parent isParent
    rw [Classes.getElem?_parent inside, Option.some.injEq] at isParent
    subst isParent
    refine ⟨forest.rank_lt var inside, ?_⟩
    intro isRoot
    exact ranked.two_pow_rank_le var inside (Classes.Forest.root_of_parentOf_eq isRoot)
  · intro few var inside
    exact ranked.rank_lt few inside
  · intro var inside
    rcases forest.find_spec var with ⟨root_eq, agrees⟩
    have shortens := forest.find_shortens inside
    have ends := forest.chainEnds inside
    rw [← root_eq] at shortens ends
    refine ⟨ends, shortens, ?_, agrees.rank_eq, agrees.bound_eq⟩
    intro other otherInside top
    exact forest.chainEnds_find_iff otherInside
  · intro node left insideLeft right insideRight start
    have valid := ranked.valid insideLeft insideRight
    refine ⟨valid.acc, ranked.exists_stops insideLeft insideRight node, ?_⟩
    intro pending rounds next
    have follows := valid.follows_of_rounds rounds
    refine ⟨fun drops => (drops.spec follows.valid).2.1,
      fun joins => (joins.spec follows.valid).2.1, ?_⟩
    intro few
    exact follows.valid.joins_linkByte_iff (follows.size_eq.symm ▸ few)

/-- Two types, each of which is the product of itself with itself. -/
def twoCycles : Solver :=
  ⟨⟨#[0, 0, 2, 2], #[1, 0, 1, 0], #[.prod 0 0, .prod 0 0, .prod 2 2, .prod 2 2]⟩, none⟩

/-- Two cyclic types are made one in a single round that links their roots. The pair of their parts, which
comes up twice, is the same pair again and is dropped. -/
theorem chains_end_and_unify_stops_twoCycles :
    let linked : Classes :=
      ⟨#[0, 0, 0, 2], #[2, 0, 1, 0], #[.prod 0 0, .prod 0 0, .prod 2 2, .prod 2 2]⟩
    Reachable twoCycles ∧ 2 ^ 1 ≤ (twoCycles.classes.members 0).card ∧
      ChainEnds twoCycles.classes.parent 3 2 ∧
      ∃ last, ReflTransGen Pending.Round ⟨[(0, 2)], twoCycles.classes⟩ last ∧
        last.Stops 0 (.ok linked) := by
  intro linked
  have first : Reachable ⟨⟨#[0, 0], #[1, 0], #[.prod 0 0, .prod 0 0]⟩, none⟩ :=
    (Reachable.start.call (.var .free) (by decide) rfl).call (.bind 0 (.prod 0 0) 0) (by decide) rfl
  have reachable : Reachable twoCycles :=
    (first.call (.var .free) (by decide) rfl).call (.bind 2 (.prod 2 2) 0) (by decide) rfl
  have spec := reachable.chains_end_and_unify_stops
  have unified : twoCycles.classes.unify 0 2 0 = .ok linked := rfl
  rcases spec.2.2.2 0 0 (by decide) 2 (by decide) with ⟨-, stops, -⟩
  rw [unified] at stops
  exact ⟨reachable, ((spec.1 0 (by decide)).2 0 rfl).2 rfl, (spec.1 3 (by decide)).1, stops⟩

end Reachable

end Solver

end Simplicity.Typing
