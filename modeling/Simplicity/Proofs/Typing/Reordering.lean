import Simplicity.Proofs.Typing.Inference

/-!
# The order of constraints

Inference imposes constraints in the order of the nodes. To say that nothing depends on it, the
equations of a list of nodes are imposed here in whatever order they are given, on variables of
which nothing is known, by the same unification. The classes that come out differ from one order to
another in their roots, and in variables that are added on the way. But their models are always the
assignments that satisfy all equations, and so the types that are read off are those of the least
typing.
-/

namespace Simplicity

namespace Typing

/-- Imposes an equation. The first node is blamed for a failure. -/
def Equation.impose : Equation → Solve Unit
  | .same left right => Solve.unify left right 0
  | .shape var bound => Solve.bind var bound 0

/-- Imposes equations one after another. -/
def imposeAll : List Equation → Solve Unit
  | [] => return ()
  | equation :: rest => do
      equation.impose
      imposeAll rest

/-- Variables of which nothing is known. -/
def Classes.unknown : (size : Nat) → Classes
  | 0 => .empty
  | size + 1 => (unknown size).push .free

/-- The types of a list of nodes whose last node is the root, when their equations are imposed in a
given order. -/
def inferInOrder (nodes : Array Node) (order : List Equation) :
    Except TypeError (Array (Option Arrow)) := do
  let layout := Layout.ofNodes nodes.toList
  let ((), solver) ← imposeAll order ⟨.unknown layout.close.frontier.next, none⟩
  let marks := Array.replicate solver.classes.size .unvisited
  resolveAll solver.classes (nodes.toList.zip layout.ends.toList) marks #[]

theorem Classes.unknown_spec (size : Nat) :
    (unknown size).Forest ∧ (unknown size).size = size ∧
      ∀ {T : Type} (frame : Frame T) (value : Var → T), frame.Models value (unknown size) := by
  induction size with
  | zero => exact ⟨Forest.empty, rfl, models_empty⟩
  | succ size ih =>
      rcases ih with ⟨forest, size_eq, models⟩
      refine ⟨forest.push (by simp [Bound.parts]), ?_, ?_⟩
      · rw [unknown, Forest.size_push, size_eq]
      · intro T frame value
        exact (models_push forest (by simp [Bound.parts]) frame value).mpr
          ⟨models frame value, trivial⟩

/-- Classes say nothing of variables that they do not have. -/
theorem Classes.models_congr {classes : Classes} (forest : classes.Forest) {T : Type}
    {frame : Frame T} {value value' : Var → T}
    (agree : ∀ var < classes.size, value' var = value var) (models : frame.Models value classes) :
    frame.Models value' classes := by
  intro var
  rcases Nat.lt_or_ge var classes.size with inside | past
  · have rootInside := forest.root_lt inside
    rw [agree var inside, agree _ rootInside]
    refine ⟨(models var).1, ?_⟩
    rw [Frame.fits_congr fun part member => agree part (forest.parts_lt _ rootInside part member)]
    exact (models var).2
  · rw [Forest.root_of_size_le past, boundOf_of_size_le (forest.bound_size ▸ past)]
    exact ⟨rfl, trivial⟩

/-- What imposing equations on some variables comes to: all models that are left satisfy the
equations, and all assignments that do are models on these variables. -/
structure Narrows (size : Nat) (solver : Solver) (equations : List Equation) (solver' : Solver) :
    Prop where
  forest : solver'.classes.Forest
  size_le : size ≤ solver'.classes.size
  sound : ∀ {T : Type} {frame : Frame T} {value : Var → T},
    frame.Models value solver'.classes →
      frame.Models value solver.classes ∧ frame.Satisfies value equations
  complete : ∀ {T : Type} {frame : Frame T} {value : Var → T},
    frame.Models value solver.classes → frame.Satisfies value equations →
      ∃ value', (∀ var < size, value' var = value var) ∧ frame.Models value' solver'.classes

variable {solver : Solver} {size : Nat}

theorem impose_spec (forest : solver.classes.Forest) (size_le : size ≤ solver.classes.size)
    {equation : Equation} (within : equation.Within size) :
    (∃ solver', equation.impose solver = .ok ((), solver') ∧
        Narrows size solver [equation] solver') ∨
      (∃ error, equation.impose solver = .error error) ∧
        ∀ {T : Type} (frame : Frame T) (value : Var → T), frame.Models value solver.classes →
          ¬ equation.Holds frame value := by
  have isAt : solver.At ⟨solver.classes.size, solver.word⟩ := ⟨forest, rfl, rfl⟩
  have within := within.mono size_le
  cases equation with
  | same left right =>
      have imposes : Imposes 0 ⟨solver.classes.size, solver.word⟩ (Solve.unify left right 0) ()
          ⟨solver.classes.size, solver.word⟩ [.same left right] :=
        .unify within.1 within.2
      rcases imposes solver isAt with ⟨solver', ran, isAt', models_iff⟩ | ⟨⟨l, r, ran⟩, fails⟩
      · refine .inl ⟨solver', ran, isAt'.forest, isAt'.size_eq ▸ size_le, (models_iff _ _).mp, ?_⟩
        intro T frame value models satisfies
        exact ⟨value, fun _ _ => rfl, (models_iff frame value).mpr ⟨models, satisfies⟩⟩
      · refine .inr ⟨⟨_, ran⟩, ?_⟩
        intro T frame value models holds
        exact fails frame value models (satisfies_cons.mpr ⟨holds, satisfies_nil⟩)
  | shape var bound =>
      have imposes : Imposes 0 ⟨solver.classes.size, solver.word⟩ (Solve.bind var bound 0) ()
          ⟨solver.classes.size + 1, solver.word⟩ (Equation.bind var bound solver.classes.size) :=
        .bound within.1 within.2
      -- The variable that is added is assigned what the bound variable is.
      have extensible : ∀ {T : Type} (frame : Frame T) (value : Var → T),
          frame.Models value solver.classes → frame.Fits value bound (value var) →
            ∃ value', (∀ other < solver.classes.size, value' other = value other) ∧
              frame.Models value' solver.classes ∧
              frame.Satisfies value' (Equation.bind var bound solver.classes.size) := by
        intro T frame value models fits
        have agree : ∀ other < solver.classes.size,
            Function.update value solver.classes.size (value var) other = value other := by
          intro other inside
          exact Function.update_of_ne (Nat.ne_of_lt inside) _ _
        refine ⟨_, agree, Classes.models_congr forest agree models, ?_⟩
        simp only [Equation.bind, satisfies_cons, Equation.Holds, Function.update_self,
          agree var within.1, satisfies_nil, and_true]
        exact (Frame.fits_congr fun part member => agree part (within.2 part member)).mpr fits
      rcases imposes solver isAt with ⟨solver', ran, isAt', models_iff⟩ | ⟨⟨l, r, ran⟩, fails⟩
      · refine .inl ⟨solver', ran, isAt'.forest, ?_, ?_, ?_⟩
        · rw [isAt'.size_eq]
          exact Nat.le_succ_of_le size_le
        · intro T frame value models
          rcases (models_iff frame value).mp models with ⟨models', satisfies⟩
          simp only [Equation.bind, satisfies_cons, Equation.Holds] at satisfies
          refine ⟨models', satisfies_cons.mpr ⟨?_, satisfies_nil⟩⟩
          rw [Equation.Holds, satisfies.2.1]
          exact satisfies.1
        · intro T frame value models satisfies
          rcases extensible frame value models (satisfies_cons.mp satisfies).1 with
            ⟨value', agree, models', satisfies'⟩
          exact ⟨value', fun other inside => agree other (Nat.lt_of_lt_of_le inside size_le),
            (models_iff frame value').mpr ⟨models', satisfies'⟩⟩
      · refine .inr ⟨⟨_, ran⟩, ?_⟩
        intro T frame value models holds
        rcases extensible frame value models holds with ⟨value', -, models', satisfies'⟩
        exact fails frame value' models' satisfies'

theorem Narrows.trans {solver' solver'' : Solver} {first second : List Equation}
    (narrows : Narrows size solver first solver') (narrows' : Narrows size solver' second solver'')
    (within : ∀ equation ∈ second, equation.Within size) :
    Narrows size solver (first ++ second) solver'' where
  forest := narrows'.forest
  size_le := narrows'.size_le
  sound := by
    intro T frame value models
    rcases narrows'.sound models with ⟨models', satisfies⟩
    rcases narrows.sound models' with ⟨models'', satisfies'⟩
    exact ⟨models'', satisfies_append.mpr ⟨satisfies', satisfies⟩⟩
  complete := by
    intro T frame value models satisfies
    rcases satisfies_append.mp satisfies with ⟨satisfiesFirst, satisfiesSecond⟩
    rcases narrows.complete models satisfiesFirst with ⟨middle, agree, models'⟩
    rcases narrows'.complete models' ((satisfies_congr within agree).mpr satisfiesSecond) with
      ⟨value', agree', models''⟩
    exact ⟨value', fun var inside => (agree' var inside).trans (agree var inside), models''⟩

/-- Imposing equations in any order narrows the models down to those that satisfy all of them, or
there are none. -/
theorem imposeAll_spec (forest : solver.classes.Forest) (size_le : size ≤ solver.classes.size)
    {order : List Equation} (within : ∀ equation ∈ order, equation.Within size) :
    (∃ solver', imposeAll order solver = .ok ((), solver') ∧ Narrows size solver order solver') ∨
      (∃ error, imposeAll order solver = .error error) ∧
        ∀ {T : Type} (frame : Frame T) (value : Var → T), frame.Models value solver.classes →
          ¬ frame.Satisfies value order := by
  induction order generalizing solver with
  | nil =>
      refine .inl ⟨solver, rfl, forest, size_le, fun models => ⟨models, satisfies_nil⟩, ?_⟩
      intro T frame value models _
      exact ⟨value, fun _ _ => rfl, models⟩
  | cons equation order ih =>
      rw [List.forall_mem_cons] at within
      rcases impose_spec forest size_le within.1 with
        ⟨solver', ran, narrows⟩ | ⟨⟨error, ran⟩, fails⟩
      · have continues : imposeAll (equation :: order) solver = imposeAll order solver' := by
          change (equation.impose solver >>= fun result => imposeAll order result.2) = _
          rw [ran]
          rfl
        rw [continues]
        rcases ih narrows.forest narrows.size_le within.2 with
          ⟨solver'', ran', narrows'⟩ | ⟨failed, fails⟩
        · exact .inl ⟨solver'', ran', narrows.trans narrows' within.2⟩
        · refine .inr ⟨failed, ?_⟩
          intro T frame value models satisfies
          rcases satisfies_cons.mp satisfies with ⟨holds, rest⟩
          rcases narrows.complete models (satisfies_cons.mpr ⟨holds, satisfies_nil⟩) with
            ⟨value', agree, models'⟩
          exact fails frame value' models' ((satisfies_congr within.2 agree).mpr rest)
      · refine .inr ⟨⟨error, ?_⟩, ?_⟩
        · change (equation.impose solver >>= fun result => imposeAll order result.2) = _
          rw [ran]
          rfl
        · intro T frame value models satisfies
          exact fails frame value models (satisfies_cons.mp satisfies).1

/-- In whatever order equations are imposed, the types that are read off are the least typing. -/
theorem inferInOrder_least {dag : Dag} (nonempty : 0 < dag.size)
    (rootVisible : hiddenAt dag.nodes (dag.size - 1) = false) {order : List Equation}
    (permutes : order.Perm (equationsOf dag.nodes)) :
    (∃ arrows, inferInOrder dag.nodes order = .ok arrows ∧ LeastTyping dag.nodes arrows) ∨
      (∃ error, inferInOrder dag.nodes order = .error error) ∧
        ¬ ∃ typing, WellTyped dag.nodes typing := by
  rcases Classes.unknown_spec (Layout.ofNodes dag.nodes.toList).close.frontier.next with
    ⟨forest, size_eq, models⟩
  have valid := (Layout.valid_ofNodes dag.nodes.toList).close
  have within : ∀ equation ∈ order,
      equation.Within (Layout.ofNodes dag.nodes.toList).close.frontier.next :=
    fun equation member => valid.equations equation (permutes.mem_iff.mp member)
  have satisfies_iff : ∀ {T : Type} {frame : Frame T} {value : Var → T},
      frame.Satisfies value order ↔ frame.Satisfies value (equationsOf dag.nodes) :=
    forall_congr' fun equation => imp_congr_left permutes.mem_iff
  rcases @imposeAll_spec ⟨_, none⟩ _ forest (Nat.le_of_eq size_eq.symm) order within with
    ⟨solver, ran, narrows⟩ | ⟨⟨error, ran⟩, fails⟩
  · have continues : inferInOrder dag.nodes order = resolveAll solver.classes (pairsOf dag)
        (Array.replicate solver.classes.size .unvisited) #[] := by
      rw [inferInOrder, ran]
      rfl
    rw [continues]
    apply resolveAll_least nonempty rootVisible
    refine ⟨narrows.forest, narrows.size_le, ?_, ?_⟩
    · intro T frame value modelsValue
      exact satisfies_iff.mp (narrows.sound modelsValue).2
    · intro T frame value satisfies
      exact narrows.complete (models frame value) (satisfies_iff.mpr satisfies)
  · refine .inr ⟨⟨error, ?_⟩, ?_⟩
    · rw [inferInOrder, ran]
      rfl
    · rintro ⟨typing, typed⟩
      rcases exists_satisfies_of_wellTyped typed with ⟨value, satisfies, -⟩
      exact fails Frame.types value (models Frame.types value) (satisfies_iff.mpr satisfies)

/-- A result that is the least typing, or a failure if there is none, is determined by that. -/
theorem eq_ok_iff_of_least {nodes : Array Node} {result : Except TypeError (Array (Option Arrow))}
    (outcome : (∃ arrows, result = .ok arrows ∧ LeastTyping nodes arrows) ∨
      (∃ error, result = .error error) ∧ ¬ ∃ typing, WellTyped nodes typing)
    (arrows : Array (Option Arrow)) : result = .ok arrows ↔ LeastTyping nodes arrows := by
  rcases outcome with ⟨found, rfl, least⟩ | ⟨⟨error, rfl⟩, none⟩
  · constructor
    · intro same
      cases same
      exact least
    · intro least'
      rw [least.unique least']
  · constructor
    · intro same
      cases same
    · intro least
      exact absurd ⟨arrows, least.wellTyped⟩ none

end Typing

/-- Inference is complete and finds the least typing: whenever a list of nodes has a typing,
inference succeeds and what it finds is below that typing. So inference fails exactly if there is no
typing, what it finds is the one least typing, and it would find the same in any other order of the
constraints. -/
theorem inferArrows_eq_ok_iff_least {dag : Dag} (nonempty : 0 < dag.size)
    (rootVisible : hiddenAt dag.nodes (dag.size - 1) = false) :
    (∀ typing, WellTyped dag.nodes typing →
      ∃ arrows, inferArrows dag.nodes = .ok arrows ∧ ArrowsBelow arrows typing) ∧
    ((∃ error, inferArrows dag.nodes = .error error) ↔
      ¬ ∃ typing, WellTyped dag.nodes typing) ∧
    (∀ arrows, inferArrows dag.nodes = .ok arrows ↔ LeastTyping dag.nodes arrows) ∧
    ∀ order : List Typing.Equation, order.Perm (Typing.equationsOf dag.nodes) →
      ∀ arrows, Typing.inferInOrder dag.nodes order = .ok arrows ↔
        inferArrows dag.nodes = .ok arrows := by
  have outcome := Typing.inferArrows_least nonempty rootVisible
  have ok_iff := Typing.eq_ok_iff_of_least outcome
  refine ⟨?_, ?_, ok_iff, ?_⟩
  · intro typing typed
    rcases outcome with ⟨arrows, ran, least⟩ | ⟨-, none⟩
    · exact ⟨arrows, ran, least.below typing typed⟩
    · exact absurd ⟨typing, typed⟩ none
  · rcases outcome with ⟨arrows, ran, least⟩ | ⟨failed, none⟩
    · rw [ran]
      constructor
      · rintro ⟨error, failed⟩
        cases failed
      · intro none
        exact absurd ⟨arrows, least.wellTyped⟩ none
    · exact ⟨fun _ => none, fun _ => failed⟩
  · intro order permutes arrows
    rw [Typing.eq_ok_iff_of_least (Typing.inferInOrder_least nonempty rootVisible permutes), ok_iff]

theorem leastTyping_freeWitness : ∃ dag,
    Dag.ofNodes #[.iden, .witness, .pair 0 1, .unit, .comp 2 3] = .ok dag ∧
      0 < dag.size ∧ hiddenAt dag.nodes (dag.size - 1) = false ∧
      LeastTyping dag.nodes #[
        some ⟨.unit, .unit⟩, some ⟨.unit, .unit⟩, some ⟨.unit, .prod .unit .unit⟩,
        some ⟨.prod .unit .unit, .unit⟩, some ⟨.unit, .unit⟩] ∧
      Typing.inferInOrder dag.nodes (Typing.equationsOf dag.nodes).reverse = .ok #[
        some ⟨.unit, .unit⟩, some ⟨.unit, .unit⟩, some ⟨.unit, .prod .unit .unit⟩,
        some ⟨.prod .unit .unit, .unit⟩, some ⟨.unit, .unit⟩] := by
  refine ⟨_, rfl, by decide, by decide, ?_, ?_⟩
  · exact ((inferArrows_eq_ok_iff_least (by decide) (by decide)).2.2.1 _).mp rfl
  · exact ((inferArrows_eq_ok_iff_least (by decide) (by decide)).2.2.2 _
      (List.reverse_perm _) _).mpr rfl

end Simplicity
