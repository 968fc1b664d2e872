import Mathlib.Data.Set.Basic
import Mathlib.Logic.Relation
import Simplicity.Dag
import Simplicity.Proofs.Typing.Solution

/-!
# Type terms

The typing rules of a list of nodes, written as equations between terms. The unknowns of these are the
source and the target of each node, and the types that its rule leaves open. Nothing here depends on
how the equations are solved.

Constraints equate terms: they do so directly, by being symmetric and transitive, and because a sum or
a product determines its parts. Constraints clash if they equate terms with different constructors. If
they do not, then the classes of equated terms are a frame, in which every term stands for its own
class. Conversely, constraints that hold in some frame cannot clash, and if a term can be read as a
type there, then its class is not made of itself.
-/

namespace Simplicity.Typing

/-- A type that the rules of a list of nodes speak of. -/
inductive Unknown where
  | source (index : Nat)
  | target (index : Nat)
  /-- One of the types that the rule of a node leaves open. -/
  | inner (index place : Nat)

/-- A type with unknowns. -/
inductive Term where
  | unknown (unknown : Unknown)
  | unit
  | sum (left right : Term)
  | prod (left right : Term)

namespace Term

def source (index : Nat) : Term :=
  .unknown (.source index)

def target (index : Nat) : Term :=
  .unknown (.target index)

def inner (index place : Nat) : Term :=
  .unknown (.inner index place)

/-- A type, which has no unknowns. -/
def ofTy : Ty → Term
  | .unit => .unit
  | .sum left right => .sum (ofTy left) (ofTy right)
  | .prod left right => .prod (ofTy left) (ofTy right)

/-- The outermost constructor of a term that has one. -/
def shape? : Term → Option Ty.Shape
  | .unknown _ => none
  | .unit => some .unit
  | .sum _ _ => some .sum
  | .prod _ _ => some .prod

end Term

open Term in
/-- The source of a choice is a product of a sum and a context. -/
def choiceConstraint (index : Nat) : Term × Term :=
  (source index, .prod (.sum (inner index 0) (inner index 1)) (inner index 2))

open Term in
/-- A branch of a choice takes one side of the sum together with the context. -/
def branchConstraints (index child side : Nat) : List (Term × Term) :=
  [(source child, .prod (inner index side) (inner index 2)), (target index, target child)]

open Term in
/-- The typing rule of the node at an index. -/
def ruleConstraints (index : Nat) : Node → List (Term × Term)
  | .iden => [(source index, target index)]
  | .unit => [(target index, .unit)]
  | .injl child =>
      [(source index, source child), (target index, .sum (target child) (inner index 0))]
  | .injr child =>
      [(source index, source child), (target index, .sum (inner index 0) (target child))]
  | .take child =>
      [(source index, .prod (source child) (inner index 0)), (target index, target child)]
  | .drop child =>
      [(source index, .prod (inner index 0) (source child)), (target index, target child)]
  | .comp left right =>
      [(source index, source left), (target left, source right), (target index, target right)]
  | .pair left right =>
      [(source index, source left), (source index, source right),
        (target index, .prod (target left) (target right))]
  | .case left right =>
      choiceConstraint index :: (branchConstraints index left 0 ++ branchConstraints index right 1)
  | .assertl left _ => choiceConstraint index :: branchConstraints index left 0
  | .assertr _ right => choiceConstraint index :: branchConstraints index right 1
  | .disconnect left right =>
      [(source left, .prod (ofTy .word256) (source index)),
        (target left, .prod (inner index 0) (source right)),
        (target index, .prod (inner index 0) (target right))]
  | .witness | .hidden _ => []

open Term in
/-- The root is a program. -/
def rootConstraints (index : Nat) : List (Term × Term) :=
  [(source index, .unit), (target index, .unit)]

/-- The typing rules of the nodes up to an index, and if that is the last one, the type of the root. -/
def constraintsUpTo (nodes : Array Node) (index : Nat) : Set (Term × Term) :=
  { constraint |
    (∃ earlier ≤ index, ∃ node, nodes[earlier]? = some node ∧
      constraint ∈ ruleConstraints earlier node) ∨
    index + 1 = nodes.size ∧ constraint ∈ rootConstraints index }

/-- The least equivalence that contains constraints and by which equated sums, and equated products,
have equated parts. A term that does not occur in the constraints is equated with itself alone. -/
inductive Equated (constraints : Set (Term × Term)) : Term → Term → Prop where
  | constraint {left right : Term} : (left, right) ∈ constraints → Equated constraints left right
  | refl (term : Term) : Equated constraints term term
  | symm {left right : Term} : Equated constraints left right → Equated constraints right left
  | trans {left middle right : Term} : Equated constraints left middle →
      Equated constraints middle right → Equated constraints left right
  | sumLeft {left right left' right' : Term} :
      Equated constraints (.sum left right) (.sum left' right') → Equated constraints left left'
  | sumRight {left right left' right' : Term} :
      Equated constraints (.sum left right) (.sum left' right') → Equated constraints right right'
  | prodLeft {left right left' right' : Term} :
      Equated constraints (.prod left right) (.prod left' right') → Equated constraints left left'
  | prodRight {left right left' right' : Term} :
      Equated constraints (.prod left right) (.prod left' right') → Equated constraints right right'

/-- Terms with different outermost constructors are equated. -/
def Clashing (constraints : Set (Term × Term)) : Prop :=
  ∃ left right leftShape rightShape, Equated constraints left right ∧
    left.shape? = some leftShape ∧ right.shape? = some rightShape ∧ leftShape ≠ rightShape

/-- Equated terms are in one class. -/
def closure (constraints : Set (Term × Term)) : Setoid Term where
  r := Equated constraints
  iseqv := ⟨.refl, .symm, .trans⟩

/-- The classes of equated terms. -/
abbrev TermClass (constraints : Set (Term × Term)) : Type :=
  Quotient (closure constraints)

/-- The class of a term. -/
def classOf (constraints : Set (Term × Term)) (term : Term) : TermClass constraints :=
  Quotient.mk (closure constraints) term

/-- One class has a sum or a product of which a term of the other class is a part. -/
def Component {constraints : Set (Term × Term)} (whole part : TermClass constraints) : Prop :=
  ∃ left right,
    (whole = classOf constraints (.sum left right) ∨ whole = classOf constraints (.prod left right)) ∧
      (part = classOf constraints left ∨ part = classOf constraints right)

/-- From a class, going from component to component, one gets to a class that is a component of itself,
however deep. -/
def ReachesCycle {constraints : Set (Term × Term)} (start : TermClass constraints) : Prop :=
  ∃ whole, Relation.ReflTransGen Component start whole ∧ Relation.TransGen Component whole whole

/-- The first of the nodes up to which the constraints clash. -/
structure FirstClash (nodes : Array Node) (index : Nat) : Prop where
  inside : index < nodes.size
  clashes : Clashing (constraintsUpTo nodes index)
  least : ∀ earlier < index, ¬ Clashing (constraintsUpTo nodes earlier)

/-- The source or the target of a node that is not hidden reaches a cycle, by all constraints. -/
def CyclicAt (nodes : Array Node) (index : Nat) : Prop :=
  hiddenAt nodes index = false ∧
    (ReachesCycle (classOf (constraintsUpTo nodes (nodes.size - 1)) (.source index)) ∨
      ReachesCycle (classOf (constraintsUpTo nodes (nodes.size - 1)) (.target index)))

/-- The first of the nodes that are not hidden and reach a cycle. -/
structure FirstCyclic (nodes : Array Node) (index : Nat) : Prop where
  inside : index < nodes.size
  cyclic : CyclicAt nodes index
  least : ∀ earlier < index, ¬ CyclicAt nodes earlier

variable {constraints : Set (Term × Term)} {nodes : Array Node}

theorem classOf_eq_iff {left right : Term} :
    classOf constraints left = classOf constraints right ↔ Equated constraints left right :=
  Quotient.eq (r := closure constraints)

theorem Equated.mono {constraints' : Set (Term × Term)} (subset : constraints ⊆ constraints')
    {left right : Term} (equated : Equated constraints left right) :
    Equated constraints' left right := by
  induction equated with
  | constraint member => exact .constraint (subset member)
  | refl term => exact .refl term
  | symm _ ih => exact ih.symm
  | trans _ _ ihLeft ihRight => exact ihLeft.trans ihRight
  | sumLeft _ ih => exact ih.sumLeft
  | sumRight _ ih => exact ih.sumRight
  | prodLeft _ ih => exact ih.prodLeft
  | prodRight _ ih => exact ih.prodRight

theorem Clashing.mono {constraints' : Set (Term × Term)} (subset : constraints ⊆ constraints')
    (clashes : Clashing constraints) : Clashing constraints' := by
  rcases clashes with ⟨left, right, leftShape, rightShape, equated, shapes⟩
  exact ⟨left, right, leftShape, rightShape, equated.mono subset, shapes⟩

theorem constraintsUpTo_subset {earlier later : Nat} (le : earlier ≤ later)
    (inside : later < nodes.size) : constraintsUpTo nodes earlier ⊆ constraintsUpTo nodes later := by
  rintro constraint (⟨index, before, node, isNode, member⟩ | ⟨isLast, member⟩)
  · exact .inl ⟨index, Nat.le_trans before le, node, isNode, member⟩
  · have same : earlier = later := by omega
    subst same
    exact .inr ⟨isLast, member⟩

theorem FirstClash.unique {index index' : Nat} (first : FirstClash nodes index)
    (first' : FirstClash nodes index') : index = index' := by
  rcases Nat.lt_trichotomy index index' with lt | eq | gt
  · exact absurd first.clashes (first'.least index lt)
  · exact eq
  · exact absurd first'.clashes (first.least index' gt)

theorem FirstCyclic.unique {index index' : Nat} (first : FirstCyclic nodes index)
    (first' : FirstCyclic nodes index') : index = index' := by
  rcases Nat.lt_trichotomy index index' with lt | eq | gt
  · exact absurd first.cyclic (first'.least index lt)
  · exact eq
  · exact absurd first'.cyclic (first.least index' gt)

section Evaluation

variable {T : Type} {frame : Frame T} {eval : Term → T}

/-- Terms stand for elements of a frame, and are made there of what their parts stand for. -/
structure Frame.Evaluates (frame : Frame T) (eval : Term → T) : Prop where
  unit : frame.IsUnit (eval .unit)
  sum : ∀ left right, frame.IsSum (eval (.sum left right)) (eval left) (eval right)
  prod : ∀ left right, frame.IsProd (eval (.prod left right)) (eval left) (eval right)

/-- The two sides of each constraint stand for the same. -/
def Respects (eval : Term → T) (constraints : Set (Term × Term)) : Prop :=
  ∀ left right, (left, right) ∈ constraints → eval left = eval right

theorem Respects.rule {index earlier : Nat} {node : Node}
    (respects : Respects eval (constraintsUpTo nodes index)) (le : earlier ≤ index)
    (isNode : nodes[earlier]? = some node) :
    ∀ constraint ∈ ruleConstraints earlier node, eval constraint.1 = eval constraint.2 :=
  fun _ member => respects _ _ (.inl ⟨earlier, le, node, isNode, member⟩)

theorem Respects.root {index : Nat} (respects : Respects eval (constraintsUpTo nodes index))
    (isLast : index + 1 = nodes.size) :
    ∀ constraint ∈ rootConstraints index, eval constraint.1 = eval constraint.2 :=
  fun _ member => respects _ _ (.inr ⟨isLast, member⟩)

/-- What is equated by constraints that hold stands for the same, in whatever frame. -/
theorem Equated.eval_eq (evaluates : frame.Evaluates eval) (respects : Respects eval constraints)
    {left right : Term} (equated : Equated constraints left right) : eval left = eval right := by
  induction equated with
  | constraint member => exact respects _ _ member
  | refl => rfl
  | symm _ ih => exact ih.symm
  | trans _ _ ihLeft ihRight => exact ihLeft.trans ihRight
  | @sumLeft left right left' right' _ ih =>
      exact (frame.sum_inj (ih ▸ evaluates.sum left right) (evaluates.sum left' right')).1
  | @sumRight left right left' right' _ ih =>
      exact (frame.sum_inj (ih ▸ evaluates.sum left right) (evaluates.sum left' right')).2
  | @prodLeft left right left' right' _ ih =>
      exact (frame.prod_inj (ih ▸ evaluates.prod left right) (evaluates.prod left' right')).1
  | @prodRight left right left' right' _ ih =>
      exact (frame.prod_inj (ih ▸ evaluates.prod left right) (evaluates.prod left' right')).2

/-- Constraints that hold in some frame do not clash. -/
theorem Frame.Evaluates.not_clashing (evaluates : frame.Evaluates eval)
    (respects : Respects eval constraints) : ¬ Clashing constraints := by
  rintro ⟨left, right, leftShape, rightShape, equated, hasLeft, hasRight, differ⟩
  have same : eval left = eval right := equated.eval_eq evaluates respects
  cases left <;> cases right <;> simp only [Term.shape?, reduceCtorEq, Option.some.injEq]
    at hasLeft hasRight <;> subst hasLeft hasRight
  case unit.unit | sum.sum | prod.prod => exact differ rfl
  case unit.sum => exact frame.unit_ne_sum (same ▸ evaluates.unit) (evaluates.sum _ _)
  case unit.prod => exact frame.unit_ne_prod (same ▸ evaluates.unit) (evaluates.prod _ _)
  case sum.unit => exact frame.unit_ne_sum evaluates.unit (same ▸ evaluates.sum _ _)
  case sum.prod => exact frame.sum_ne_prod (same ▸ evaluates.sum _ _) (evaluates.prod _ _)
  case prod.unit => exact frame.unit_ne_prod evaluates.unit (same ▸ evaluates.prod _ _)
  case prod.sum => exact frame.sum_ne_prod (evaluates.sum _ _) (same ▸ evaluates.prod _ _)

section Reading

variable {Reads : T → Ty → Prop}

/-- Some term of a class is read as a type. -/
def ClassReads (Reads : T → Ty → Prop) (eval : Term → T) (whole : TermClass constraints)
    (ty : Ty) : Prop :=
  ∃ term, whole = classOf constraints term ∧ Reads (eval term) ty

theorem ClassReads.unique (evaluates : frame.Evaluates eval) (respects : Respects eval constraints)
    (reading : frame.Reading Reads) {whole : TermClass constraints} {ty ty' : Ty}
    (reads : ClassReads Reads eval whole ty) (reads' : ClassReads Reads eval whole ty') :
    ty = ty' := by
  rcases reads with ⟨term, rfl, reads⟩
  rcases reads' with ⟨term', same, reads'⟩
  rw [← (classOf_eq_iff.mp same).eval_eq evaluates respects] at reads'
  exact reading.unique reads reads'

/-- Components of a class that is read as a type are read as smaller types. -/
theorem ClassReads.of_component (evaluates : frame.Evaluates eval)
    (respects : Respects eval constraints) (reading : frame.Reading Reads)
    {whole part : TermClass constraints} {ty : Ty} (reads : ClassReads Reads eval whole ty)
    (isPart : Component whole part) :
    ∃ partTy, ClassReads Reads eval part partTy ∧ sizeOf partTy < sizeOf ty := by
  rcases reads with ⟨term, rfl, reads⟩
  rcases isPart with ⟨left, right, isSum | isProd, isPart⟩
  · rw [(classOf_eq_iff.mp isSum).eval_eq evaluates respects] at reads
    rcases reading.sum (evaluates.sum left right) reads with
      ⟨leftTy, rightTy, rfl, readsLeft, readsRight⟩
    rcases isPart with isLeft | isRight
    · exact ⟨leftTy, ⟨left, isLeft, readsLeft⟩, by simp only [Ty.sum.sizeOf_spec]; omega⟩
    · exact ⟨rightTy, ⟨right, isRight, readsRight⟩, by simp only [Ty.sum.sizeOf_spec]; omega⟩
  · rw [(classOf_eq_iff.mp isProd).eval_eq evaluates respects] at reads
    rcases reading.prod (evaluates.prod left right) reads with
      ⟨leftTy, rightTy, rfl, readsLeft, readsRight⟩
    rcases isPart with isLeft | isRight
    · exact ⟨leftTy, ⟨left, isLeft, readsLeft⟩, by simp only [Ty.prod.sizeOf_spec]; omega⟩
    · exact ⟨rightTy, ⟨right, isRight, readsRight⟩, by simp only [Ty.prod.sizeOf_spec]; omega⟩

theorem ClassReads.of_components (evaluates : frame.Evaluates eval)
    (respects : Respects eval constraints) (reading : frame.Reading Reads)
    {whole part : TermClass constraints} {ty : Ty} (reads : ClassReads Reads eval whole ty)
    (parts : Relation.TransGen Component whole part) :
    ∃ partTy, ClassReads Reads eval part partTy ∧ sizeOf partTy < sizeOf ty := by
  induction parts with
  | single isPart => exact reads.of_component evaluates respects reading isPart
  | tail _ isPart ih =>
      rcases ih with ⟨middleTy, readsMiddle, smaller⟩
      rcases readsMiddle.of_component evaluates respects reading isPart with
        ⟨partTy, readsPart, smallest⟩
      exact ⟨partTy, readsPart, Nat.lt_trans smallest smaller⟩

/-- From a term that is read as a type there is no way to a cycle. -/
theorem not_reachesCycle_of_reads (evaluates : frame.Evaluates eval)
    (respects : Respects eval constraints) (reading : frame.Reading Reads) {term : Term} {ty : Ty}
    (reads : Reads (eval term) ty) : ¬ ReachesCycle (classOf constraints term) := by
  rintro ⟨whole, below, around⟩
  have readsTerm : ClassReads Reads eval (classOf constraints term) ty := ⟨term, rfl, reads⟩
  obtain ⟨wholeTy, readsWhole⟩ : ∃ wholeTy, ClassReads Reads eval whole wholeTy := by
    rcases Relation.reflTransGen_iff_eq_or_transGen.mp below with rfl | parts
    · exact ⟨ty, readsTerm⟩
    · rcases readsTerm.of_components evaluates respects reading parts with ⟨wholeTy, reads, -⟩
      exact ⟨wholeTy, reads⟩
  rcases readsWhole.of_components evaluates respects reading around with
    ⟨wholeTy', readsWhole', smaller⟩
  rw [readsWhole'.unique evaluates respects reading readsWhole] at smaller
  exact Nat.lt_irrefl _ smaller

end Reading

end Evaluation

section Classes

theorem not_equated_of_shape_ne (consistent : ¬ Clashing constraints) {left right : Term}
    {leftShape rightShape : Ty.Shape} (hasLeft : left.shape? = some leftShape)
    (hasRight : right.shape? = some rightShape) (differ : leftShape ≠ rightShape)
    {whole : TermClass constraints} (isLeft : whole = classOf constraints left) :
    whole ≠ classOf constraints right := by
  intro isRight
  exact consistent ⟨left, right, leftShape, rightShape, classOf_eq_iff.mp (isLeft.symm.trans isRight),
    hasLeft, hasRight, differ⟩

/-- The classes of constraints that do not clash are a frame. -/
def Frame.classes (constraints : Set (Term × Term)) (consistent : ¬ Clashing constraints) :
    Frame (TermClass constraints) where
  IsUnit whole := whole = classOf constraints .unit
  IsSum whole leftPart rightPart := ∃ left right, whole = classOf constraints (.sum left right) ∧
    leftPart = classOf constraints left ∧ rightPart = classOf constraints right
  IsProd whole leftPart rightPart := ∃ left right, whole = classOf constraints (.prod left right) ∧
    leftPart = classOf constraints left ∧ rightPart = classOf constraints right
  sum_inj := by
    rintro whole _ _ _ _ ⟨left, right, isSum, rfl, rfl⟩ ⟨left', right', isSum', rfl, rfl⟩
    have equated := classOf_eq_iff.mp (isSum.symm.trans isSum')
    exact ⟨classOf_eq_iff.mpr equated.sumLeft, classOf_eq_iff.mpr equated.sumRight⟩
  prod_inj := by
    rintro whole _ _ _ _ ⟨left, right, isProd, rfl, rfl⟩ ⟨left', right', isProd', rfl, rfl⟩
    have equated := classOf_eq_iff.mp (isProd.symm.trans isProd')
    exact ⟨classOf_eq_iff.mpr equated.prodLeft, classOf_eq_iff.mpr equated.prodRight⟩
  unit_ne_sum := by
    rintro whole _ _ isUnit ⟨left, right, isSum, -, -⟩
    exact not_equated_of_shape_ne consistent rfl rfl (by decide) isUnit isSum
  unit_ne_prod := by
    rintro whole _ _ isUnit ⟨left, right, isProd, -, -⟩
    exact not_equated_of_shape_ne consistent rfl rfl (by decide) isUnit isProd
  sum_ne_prod := by
    rintro whole _ _ _ _ ⟨left, right, isSum, -, -⟩ ⟨left', right', isProd, -, -⟩
    exact not_equated_of_shape_ne consistent rfl rfl (by decide) isSum isProd

theorem Frame.evaluates_classes (consistent : ¬ Clashing constraints) :
    (Frame.classes constraints consistent).Evaluates (classOf constraints) where
  unit := rfl
  sum left right := ⟨left, right, rfl, rfl, rfl⟩
  prod left right := ⟨left, right, rfl, rfl, rfl⟩

theorem respects_classOf (constraints : Set (Term × Term)) :
    Respects (classOf constraints) constraints :=
  fun _ _ member => classOf_eq_iff.mpr (.constraint member)

variable {classes : Classes} {consistent : ¬ Clashing constraints}
  {value : Var → TermClass constraints}

theorem component_of_part (models : (Frame.classes constraints consistent).Models value classes)
    {whole part : Var} (isRoot : classes.root whole = whole) (isPart : classes.Part whole part) :
    Component (value whole) (value part) := by
  rcases isPart with ⟨var, member, rfl⟩
  have fits := (models whole).2
  rw [isRoot] at fits
  rw [(models var).1]
  cases bound : classes.boundOf whole with
  | free => simp [bound, Bound.parts] at member
  | unit => simp [bound, Bound.parts] at member
  | sum leftVar rightVar =>
      rw [bound] at fits
      rcases fits with ⟨left, right, isSum, isLeft, isRight⟩
      refine ⟨left, right, .inl isSum, ?_⟩
      simp only [bound, Bound.parts, List.mem_cons, List.not_mem_nil, or_false] at member
      rcases member with rfl | rfl
      · exact .inl isLeft
      · exact .inr isRight
  | prod leftVar rightVar =>
      rw [bound] at fits
      rcases fits with ⟨left, right, isProd, isLeft, isRight⟩
      refine ⟨left, right, .inr isProd, ?_⟩
      simp only [bound, Bound.parts, List.mem_cons, List.not_mem_nil, or_false] at member
      rcases member with rfl | rfl
      · exact .inl isLeft
      · exact .inr isRight

theorem components_of_parts (forest : classes.Forest)
    (models : (Frame.classes constraints consistent).Models value classes) {whole part : Var}
    (isRoot : classes.root whole = whole) (parts : Relation.TransGen classes.Part whole part) :
    classes.root part = part ∧ Relation.TransGen Component (value whole) (value part) := by
  have rootOfPart : ∀ {whole part}, classes.Part whole part → classes.root part = part := by
    rintro whole _ ⟨var, -, rfl⟩
    exact forest.root_root var
  induction parts with
  | single isPart => exact ⟨rootOfPart isPart, .single (component_of_part models isRoot isPart)⟩
  | tail _ isPart ih => exact ⟨rootOfPart isPart, ih.2.tail (component_of_part models ih.1 isPart)⟩

/-- If variables are assigned classes of terms, then a cycle among the classes of the variables is one
among the classes of the terms. -/
theorem reachesCycle_of_cyclic (forest : classes.Forest)
    (models : (Frame.classes constraints consistent).Models value classes) {var : Var}
    (cyclic : classes.Cyclic (classes.root var)) : ReachesCycle (value var) := by
  rcases cyclic with ⟨whole, below, around⟩
  rw [← (models var).1]
  have isRoot := forest.root_root var
  rcases Relation.reflTransGen_iff_eq_or_transGen.mp below with rfl | parts
  · exact ⟨_, .refl, (components_of_parts forest models isRoot around).2⟩
  · rcases components_of_parts forest models isRoot parts with ⟨isRoot', components⟩
    exact ⟨_, components.to_reflTransGen, (components_of_parts forest models isRoot' around).2⟩

end Classes

end Simplicity.Typing
