import Mathlib.Data.List.Induction
import Simplicity.Proofs.Typing.Unification
import Simplicity.Typing.Inference

/-!
# Typing equations

The constraints that inference imposes on a list of nodes, written down without solving them. An
equation says that two variables stand for the same type, or what the type of a variable is made of.

Variables are numbered in the order in which inference makes them: the two ends of a node, then the
variables of its rule. A variable that is bound to a shape is made equal to a new variable of that
shape, so each of these takes a number as well. The variables of the type of 256-bit words are made
once, for the first node that needs them.
-/

namespace Simplicity.Typing

/-- What a constraint demands. -/
inductive Equation where
  /-- Two variables stand for the same type. -/
  | same (left right : Nat)
  /-- The type of a variable is made as a bound says. -/
  | shape (var : Nat) (bound : Bound)

namespace Equation

variable {T : Type} (frame : Frame T) (value : Var → T)

/-- An assignment satisfies an equation. -/
def Holds : Equation → Prop
  | .same left right => value left = value right
  | .shape var bound => frame.Fits value bound (value var)

/-- An equation speaks only of variables below a number. -/
def Within (size : Nat) : Equation → Prop
  | .same left right => left < size ∧ right < size
  | .shape var bound => var < size ∧ ∀ part ∈ bound.parts, part < size

/-- A variable has the shape of a bound, which a new variable is given. -/
def bind (var : Var) (bound : Bound) (shaped : Var) : List Equation :=
  [.shape shaped bound, .same var shaped]

end Equation

/-- An assignment satisfies all equations of a list. -/
def Frame.Satisfies {T : Type} (frame : Frame T) (value : Var → T) (equations : List Equation) :
    Prop :=
  ∀ equation ∈ equations, equation.Holds frame value

/-- How far the numbering of variables has come. -/
structure Frontier where
  next : Nat
  /-- The variable that stands for 256-bit words, once there is one. -/
  word : Option Var

namespace Frontier

/-- The next variable is passed over. -/
def skip (frontier : Frontier) (count : Nat) : Frontier :=
  { frontier with next := frontier.next + count }

/-- The variable of 256-bit words is one that has been made. -/
def Valid (frontier : Frontier) : Prop :=
  ∀ word, frontier.word = some word → word < frontier.next

end Frontier

/-- The equations of doubling a word type a number of times. -/
def doublings : (times : Nat) → (word next : Nat) → List Equation
  | 0, _, _ => []
  | times + 1, word, next => .shape next (.prod word word) :: doublings times next (next + 1)

/-- The equations of the variables that are made for 256-bit words. -/
def wordEquations (next : Nat) : List Equation :=
  .shape next .unit :: .shape (next + 1) (.sum next next) :: doublings 8 (next + 1) (next + 2)

/-- The equations of the source of a choice: a product of a sum and a context. -/
def choiceEquations (own : Ends) (next : Nat) : List Equation :=
  .shape (next + 3) (.sum next (next + 1)) ::
    Equation.bind own.source (.prod (next + 3) (next + 2)) (next + 4)

/-- The equations of a branch of a choice. -/
def branchEquations (own : Ends) (component context shaped : Nat) (child : Ends) : List Equation :=
  Equation.bind child.source (.prod component context) shaped ++ [.same own.target child.target]

/-- The equations of a delegation, when there is a variable that stands for 256-bit words. -/
def disconnectEquations (own : Ends) (word next : Nat) (left right : Ends) : List Equation :=
  Equation.bind left.source (.prod word own.source) next ++
    (Equation.bind left.target (.prod (next + 1) right.source) (next + 2) ++
      Equation.bind own.target (.prod (next + 1) right.target) (next + 3))

/-- The equations of the typing rule of a node, whose children are given by their variables, and the
numbering after it. -/
def ruleEquations (own : Ends) (frontier : Frontier) :
    Combinator Ends → List Equation × Frontier
  | .iden => ([.same own.source own.target], frontier)
  | .unit => (Equation.bind own.target .unit frontier.next, frontier.skip 1)
  | .injl child =>
      (.same own.source child.source ::
        Equation.bind own.target (.sum child.target frontier.next) (frontier.next + 1), frontier.skip 2)
  | .injr child =>
      (.same own.source child.source ::
        Equation.bind own.target (.sum frontier.next child.target) (frontier.next + 1), frontier.skip 2)
  | .take child =>
      (Equation.bind own.source (.prod child.source frontier.next) (frontier.next + 1) ++
        [.same own.target child.target], frontier.skip 2)
  | .drop child =>
      (Equation.bind own.source (.prod frontier.next child.source) (frontier.next + 1) ++
        [.same own.target child.target], frontier.skip 2)
  | .comp left right =>
      ([.same own.source left.source, .same left.target right.source,
        .same own.target right.target], frontier)
  | .pair left right =>
      (.same own.source left.source :: .same own.source right.source ::
        Equation.bind own.target (.prod left.target right.target) frontier.next, frontier.skip 1)
  | .case left right =>
      (choiceEquations own frontier.next ++
        (branchEquations own frontier.next (frontier.next + 2) (frontier.next + 5) left ++
          branchEquations own (frontier.next + 1) (frontier.next + 2) (frontier.next + 6) right),
        frontier.skip 7)
  | .assertl left _ =>
      (choiceEquations own frontier.next ++
        branchEquations own frontier.next (frontier.next + 2) (frontier.next + 5) left,
        frontier.skip 6)
  | .assertr _ right =>
      (choiceEquations own frontier.next ++
        branchEquations own (frontier.next + 1) (frontier.next + 2) (frontier.next + 5) right,
        frontier.skip 6)
  | .disconnect left right =>
      match frontier.word with
      | some word => (disconnectEquations own word frontier.next left right, frontier.skip 4)
      | none =>
          (wordEquations frontier.next ++
            disconnectEquations own (frontier.next + 9) (frontier.next + 10) left right,
            ⟨frontier.next + 14, some (frontier.next + 9)⟩)
  | .witness | .hidden _ => ([], frontier)

/-- The equations of some nodes, with the variables that these have been given. -/
structure Layout where
  ends : Array Ends
  equations : List Equation
  frontier : Frontier

namespace Layout

def empty : Layout :=
  ⟨#[], [], ⟨0, none⟩⟩

/-- The variables that the next node is given. -/
def own (layout : Layout) : Ends :=
  ⟨layout.frontier.next, layout.frontier.next + 1⟩

/-- The next node, with the variables of its children. -/
def children (layout : Layout) (node : Node) : Combinator Ends :=
  node.map fun child => (layout.ends.push layout.own).getD child default

/-- Adds a node and the equations of its rule. -/
def add (layout : Layout) (node : Node) : Layout :=
  let rule := ruleEquations layout.own (layout.frontier.skip 2) (layout.children node)
  ⟨layout.ends.push layout.own, layout.equations ++ rule.1, rule.2⟩

/-- The equations of a list of nodes. -/
def ofNodes (nodes : List Node) : Layout :=
  nodes.foldl add empty

/-- Makes the source and the target of the last node the unit type. -/
def close (layout : Layout) : Layout :=
  match layout.ends.back? with
  | none => layout
  | some root =>
      ⟨layout.ends,
        layout.equations ++ (Equation.bind root.source .unit layout.frontier.next ++
          Equation.bind root.target .unit (layout.frontier.next + 1)),
        layout.frontier.skip 2⟩

end Layout

/-- All equations of a list of nodes whose last node is the root. -/
def equationsOf (nodes : Array Node) : List Equation :=
  (Layout.ofNodes nodes.toList).close.equations

section Satisfies

variable {T : Type} {frame : Frame T} {value value' : Var → T}

@[simp]
theorem satisfies_nil : frame.Satisfies value [] := by
  simp [Frame.Satisfies]

@[simp]
theorem satisfies_cons {equation : Equation} {equations : List Equation} :
    frame.Satisfies value (equation :: equations) ↔
      equation.Holds frame value ∧ frame.Satisfies value equations := by
  simp [Frame.Satisfies]

@[simp]
theorem satisfies_append {first second : List Equation} :
    frame.Satisfies value (first ++ second) ↔
      frame.Satisfies value first ∧ frame.Satisfies value second := by
  simp [Frame.Satisfies, or_imp, forall_and]

/-- Equations say nothing of variables that they do not mention. -/
theorem Equation.holds_congr {equation : Equation} {size : Nat} (within : equation.Within size)
    (agree : ∀ var < size, value' var = value var) :
    equation.Holds frame value' ↔ equation.Holds frame value := by
  cases equation with
  | same left right => rw [Holds, Holds, agree left within.1, agree right within.2]
  | shape var bound =>
      rw [Holds, Holds, agree var within.1]
      exact Frame.fits_congr fun part member => agree part (within.2 part member)

theorem satisfies_congr {equations : List Equation} {size : Nat}
    (within : ∀ equation ∈ equations, equation.Within size)
    (agree : ∀ var < size, value' var = value var) :
    frame.Satisfies value' equations ↔ frame.Satisfies value equations :=
  forall₂_congr fun equation member => Equation.holds_congr (within equation member) agree

end Satisfies

theorem Equation.Within.mono {equation : Equation} {size size' : Nat}
    (within : equation.Within size) (le : size ≤ size') : equation.Within size' := by
  cases equation with
  | same left right => exact ⟨Nat.lt_of_lt_of_le within.1 le, Nat.lt_of_lt_of_le within.2 le⟩
  | shape var bound =>
      refine ⟨Nat.lt_of_lt_of_le within.1 le, ?_⟩
      intro part member
      exact Nat.lt_of_lt_of_le (within.2 part member) le

theorem doublings_within {times word next size : Nat} (inside : word < size)
    (enough : next + times ≤ size) :
    ∀ equation ∈ doublings times word next, equation.Within size := by
  induction times generalizing word next with
  | zero => simp [doublings]
  | succ times ih =>
      rw [doublings, List.forall_mem_cons]
      refine ⟨⟨by omega, ?_⟩, ih (by omega) (by omega)⟩
      simp [Bound.parts, inside]

theorem wordEquations_within {next size : Nat} (enough : next + 10 ≤ size) :
    ∀ equation ∈ wordEquations next, equation.Within size := by
  have rest := @doublings_within 8 (next + 1) (next + 2) size (by omega) (by omega)
  simp only [wordEquations, List.forall_mem_cons]
  refine ⟨?_, ?_, rest⟩
  · simp [Equation.Within, Bound.parts]
    grind
  · simp [Equation.Within, Bound.parts]
    grind

/-- The ends of a node are variables below a number. -/
def Ends.Within (size : Nat) (ends : Ends) : Prop :=
  size > ends.source ∧ size > ends.target

theorem Ends.Within.mono {ends : Ends} {size size' : Nat} (within : ends.Within size)
    (le : size ≤ size') : ends.Within size' :=
  ⟨Nat.lt_of_lt_of_le within.1 le, Nat.lt_of_lt_of_le within.2 le⟩

/-- The equations of a rule speak of variables that have been made, and the numbering goes on. -/
theorem ruleEquations_within {own : Ends} {frontier : Frontier} {node : Combinator Ends}
    (valid : frontier.Valid) (ownWithin : own.Within frontier.next)
    (childrenWithin : ∀ child ∈ node.children, child.Within frontier.next) :
    frontier.next ≤ (ruleEquations own frontier node).2.next ∧
      (ruleEquations own frontier node).2.Valid ∧
      ∀ equation ∈ (ruleEquations own frontier node).1,
        equation.Within (ruleEquations own frontier node).2.next := by
  rcases frontier with ⟨next, word⟩
  simp only [Frontier.Valid] at valid
  cases node with
  | witness => exact ⟨Nat.le_refl _, valid, by simp [ruleEquations]⟩
  | hidden root => exact ⟨Nat.le_refl _, valid, by simp [ruleEquations]⟩
  | disconnect left right =>
      simp only [Combinator.children, List.forall_mem_cons, List.not_mem_nil, false_implies,
        implies_true, and_true] at childrenWithin
      simp only [Ends.Within] at ownWithin childrenWithin
      rcases word with _ | word
      · have words := @wordEquations_within next (next + 14) (by omega)
        simp only [ruleEquations, List.forall_mem_append]
        refine ⟨by omega, by simp [Frontier.Valid], words, ?_⟩
        simp [disconnectEquations, Equation.bind, Equation.Within, Bound.parts]
        grind
      · have := valid word rfl
        refine ⟨by simp [ruleEquations, Frontier.skip], ?_, ?_⟩
        · simp [ruleEquations, Frontier.skip, Frontier.Valid]
          grind
        · simp [ruleEquations, Frontier.skip, disconnectEquations, Equation.bind, Equation.Within,
            Bound.parts]
          grind
  | _ =>
      simp only [Combinator.children, List.forall_mem_cons, List.not_mem_nil, false_implies,
        implies_true, and_true] at childrenWithin
      simp only [Ends.Within] at ownWithin childrenWithin
      refine ⟨by simp [ruleEquations, Frontier.skip], ?_, ?_⟩
      · intro word isWord
        have := valid word isWord
        simp [ruleEquations, Frontier.skip]
        grind
      · simp [ruleEquations, Frontier.skip, choiceEquations, branchEquations, Equation.bind,
          Equation.Within, Bound.parts]
        grind

namespace Layout

/-- Ends and equations speak of variables that have been made. -/
structure Valid (layout : Layout) : Prop where
  word : layout.frontier.Valid
  ends : ∀ ends ∈ layout.ends, ends.Within layout.frontier.next
  equations : ∀ equation ∈ layout.equations, equation.Within layout.frontier.next

theorem valid_empty : empty.Valid := by
  constructor <;> simp [empty, Frontier.Valid]

variable {layout : Layout}

theorem Frontier.Valid.skip {frontier : Frontier} (valid : frontier.Valid) (count : Nat) :
    (frontier.skip count).Valid :=
  fun word isWord => Nat.lt_of_lt_of_le (valid word isWord) (Nat.le_add_right _ _)

theorem own_within (layout : Layout) : layout.own.Within (layout.frontier.skip 2).next := by
  simp [own, Ends.Within, Frontier.skip]

theorem Valid.ends_within (valid : layout.Valid) (index : Nat) :
    ((layout.ends.push layout.own).getD index default).Within (layout.frontier.skip 2).next := by
  rw [Array.getD_eq_getD_getElem?]
  cases found : (layout.ends.push layout.own)[index]? with
  | none => exact ⟨Nat.succ_pos _, Nat.succ_pos _⟩
  | some ends =>
      rcases Array.mem_push.mp (Array.mem_of_getElem? found) with old | rfl
      · exact (valid.ends ends old).mono (Nat.le_add_right _ _)
      · exact layout.own_within

theorem Valid.children_within (valid : layout.Valid) (node : Node) :
    ∀ child ∈ (layout.children node).children, child.Within (layout.frontier.skip 2).next := by
  intro child member
  rw [children, Combinator.children_map, List.mem_map] at member
  rcases member with ⟨index, -, rfl⟩
  exact valid.ends_within index

theorem Valid.add (valid : layout.Valid) (node : Node) : (layout.add node).Valid := by
  rcases ruleEquations_within (Frontier.Valid.skip valid.word 2)
      layout.own_within (valid.children_within node) with ⟨le, word, within⟩
  have grows : layout.frontier.next ≤ (layout.add node).frontier.next :=
    Nat.le_trans (Nat.le_add_right _ 2) le
  refine ⟨word, ?_, ?_⟩
  · intro ends member
    rcases Array.mem_push.mp member with old | rfl
    · exact (valid.ends ends old).mono grows
    · exact layout.own_within.mono le
  · intro equation member
    rcases List.mem_append.mp member with old | new
    · exact (valid.equations equation old).mono grows
    · exact within equation new

theorem Valid.close (valid : layout.Valid) : layout.close.Valid := by
  unfold Layout.close
  split
  case h_1 => exact valid
  case h_2 root isLast =>
    have rootWithin := valid.ends root (Array.mem_of_back? isLast)
    refine ⟨Frontier.Valid.skip valid.word 2, ?_, ?_⟩
    · intro ends member
      exact (valid.ends ends member).mono (Nat.le_add_right _ _)
    · intro equation member
      rcases List.mem_append.mp member with old | new
      · exact (valid.equations equation old).mono (Nat.le_add_right _ _)
      · revert equation
        simp only [Ends.Within] at rootWithin
        simp [Equation.bind, Equation.Within, Bound.parts, Frontier.skip]
        grind

theorem ofNodes_append_singleton (nodes : List Node) (node : Node) :
    ofNodes (nodes ++ [node]) = (ofNodes nodes).add node := by
  simp [ofNodes]

theorem valid_ofNodes (nodes : List Node) : (ofNodes nodes).Valid := by
  induction nodes using List.reverseRecOn with
  | nil => exact valid_empty
  | append_singleton nodes node ih =>
      rw [ofNodes_append_singleton]
      exact ih.add node

theorem size_ends_add (layout : Layout) (node : Node) :
    (layout.add node).ends.size = layout.ends.size + 1 := by
  simp [add]

@[simp]
theorem size_ends_ofNodes (nodes : List Node) : (ofNodes nodes).ends.size = nodes.length := by
  induction nodes using List.reverseRecOn with
  | nil => rfl
  | append_singleton nodes node ih =>
      rw [ofNodes_append_singleton, size_ends_add, ih, List.length_append, List.length_singleton]

end Layout

end Simplicity.Typing
