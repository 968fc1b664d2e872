import Mathlib.Logic.Relation
import Simplicity.Proofs.Ty.Pruning
import Simplicity.Proofs.Typing.Unification
import Simplicity.Typing.Solution

/-!
# The types of classes

A walk from a class finds the types of the class and of all classes that its type is made of, or it
finds a class that is a part of itself. Seen as a whole, entering a class comes to one of these:

* the walk goes on with the next visit, and the class now has a type;
* the walk fails, and there is a class below the one that was entered which is a part of itself.

The second cannot happen if the classes have a model in which the entered class is assigned a type,
for along parts such types become smaller. If the walk succeeds, the type it finds is below every
type that a model assigns, because it is made of nothing but what the bounds demand.

A class that is entered for the first time costs its own two visits and at most two visits of parts,
one of which has already been counted where the class itself was a part. So three visits for each
class that has not been entered, and one for each visit that is waiting, are enough.
-/

namespace Simplicity.Typing

/-- Replaces the variables that a bound speaks of. -/
def Bound.map (f : Var → Var) : Bound → Bound
  | .free => .free
  | .unit => .unit
  | .sum left right => .sum (f left) (f right)
  | .prod left right => .prod (f left) (f right)

namespace Frame

/-- Types can be assigned to variables. -/
def types : Frame Ty where
  IsUnit whole := whole = .unit
  IsSum whole left right := whole = .sum left right
  IsProd whole left right := whole = .prod left right
  sum_inj first second := Ty.sum.inj (first.symm.trans second)
  prod_inj first second := Ty.prod.inj (first.symm.trans second)
  unit_ne_sum first second := Ty.noConfusion (first.symm.trans second)
  unit_ne_prod first second := Ty.noConfusion (first.symm.trans second)
  sum_ne_prod first second := Ty.noConfusion (first.symm.trans second)

/-- Some elements of a frame can be read as types, and then their parts can be too. -/
structure Reading {T : Type} (frame : Frame T) (Reads : T → Ty → Prop) : Prop where
  unique : ∀ {whole ty ty'}, Reads whole ty → Reads whole ty' → ty = ty'
  unit : ∀ {whole ty}, frame.IsUnit whole → Reads whole ty → ty = .unit
  sum : ∀ {whole left right ty}, frame.IsSum whole left right → Reads whole ty →
    ∃ leftTy rightTy, ty = .sum leftTy rightTy ∧ Reads left leftTy ∧ Reads right rightTy
  prod : ∀ {whole left right ty}, frame.IsProd whole left right → Reads whole ty →
    ∃ leftTy rightTy, ty = .prod leftTy rightTy ∧ Reads left leftTy ∧ Reads right rightTy

theorem types_reading : types.Reading (· = ·) := by
  constructor
  case unique =>
    rintro whole _ _ rfl rfl
    rfl
  case unit =>
    rintro whole _ isUnit rfl
    exact isUnit
  case sum =>
    rintro whole left right _ isSum rfl
    exact ⟨left, right, isSum, rfl, rfl⟩
  case prod =>
    rintro whole left right _ isProd rfl
    exact ⟨left, right, isProd, rfl, rfl⟩

end Frame

/-- A class is marked with its type. -/
def Read (marks : Array Mark) (var : Var) (ty : Ty) : Prop :=
  marks.getD var .unvisited = .done ty

/-- A class has been entered and not left. -/
def Entered (marks : Array Mark) (var : Var) : Prop :=
  marks.getD var .unvisited = .inProgress

namespace Classes

variable (classes : Classes)

/-- Classes, given by their roots, can be assigned to variables. -/
def frame : Frame Var where
  IsUnit whole := (classes.boundOf whole).map classes.root = .unit
  IsSum whole left right := (classes.boundOf whole).map classes.root = .sum left right
  IsProd whole left right := (classes.boundOf whole).map classes.root = .prod left right
  sum_inj first second := Bound.sum.inj (first.symm.trans second)
  prod_inj first second := Bound.prod.inj (first.symm.trans second)
  unit_ne_sum first second := Bound.noConfusion (first.symm.trans second)
  unit_ne_prod first second := Bound.noConfusion (first.symm.trans second)
  sum_ne_prod first second := Bound.noConfusion (first.symm.trans second)

/-- The bound of one root speaks of the class of another one. -/
def Part (whole part : Var) : Prop :=
  ∃ var ∈ (classes.boundOf whole).parts, classes.root var = part

/-- A class has a part, however deep, that is a part of itself. -/
def Cyclic (var : Var) : Prop :=
  ∃ whole, Relation.ReflTransGen classes.Part var whole ∧ Relation.TransGen classes.Part whole whole

/-- A type is made as a bound says, of types that classes are marked with. -/
def Made (marks : Array Mark) : Bound → Ty → Prop
  | .free, ty => ty = .unit
  | .unit, ty => ty = .unit
  | .sum left right, ty => ∃ leftTy rightTy, ty = .sum leftTy rightTy ∧
      Read marks (classes.root left) leftTy ∧ Read marks (classes.root right) rightTy
  | .prod left right, ty => ∃ leftTy rightTy, ty = .prod leftTy rightTy ∧
      Read marks (classes.root left) leftTy ∧ Read marks (classes.root right) rightTy

/-- The types that classes are marked with are made as their bounds say. -/
structure Settled (marks : Array Mark) : Prop where
  size_eq : marks.size = classes.size
  made : ∀ {var ty}, Read marks var ty → classes.Made marks (classes.boundOf var) ty

variable {classes}

theorem models_frame (forest : classes.Forest) : classes.frame.Models classes.root classes := by
  intro var
  rw [forest.root_root]
  refine ⟨rfl, ?_⟩
  cases bound : classes.boundOf (classes.root var) <;>
    simp [Frame.Fits, frame, bound, Bound.map]

theorem Made.mono {marks marks' : Array Mark} {bound : Bound} {ty : Ty}
    (keeps : ∀ {var ty}, Read marks var ty → Read marks' var ty)
    (made : classes.Made marks bound ty) : classes.Made marks' bound ty := by
  cases bound with
  | free => exact made
  | unit => exact made
  | sum left right =>
      rcases made with ⟨leftTy, rightTy, isSum, readLeft, readRight⟩
      exact ⟨leftTy, rightTy, isSum, keeps readLeft, keeps readRight⟩
  | prod left right =>
      rcases made with ⟨leftTy, rightTy, isProd, readLeft, readRight⟩
      exact ⟨leftTy, rightTy, isProd, keeps readLeft, keeps readRight⟩

theorem made_typeOfBound {marks : Array Mark} {bound : Bound}
    (reads : ∀ part ∈ bound.parts, ∃ ty, Read marks (classes.root part) ty) :
    classes.Made marks bound (classes.typeOfBound marks bound) := by
  have readsTypeAt : ∀ part ∈ bound.parts,
      Read marks (classes.root part) (classes.typeAt marks part) := by
    intro part member
    rcases reads part member with ⟨ty, read⟩
    rw [Read] at read
    rw [typeAt, read]
    exact read
  cases bound with
  | free => rfl
  | unit => rfl
  | sum left right =>
      exact ⟨_, _, rfl, readsTypeAt left (by simp [Bound.parts]),
        readsTypeAt right (by simp [Bound.parts])⟩
  | prod left right =>
      exact ⟨_, _, rfl, readsTypeAt left (by simp [Bound.parts]),
        readsTypeAt right (by simp [Bound.parts])⟩

/-- The types that classes are marked with are a reading of the classes. -/
theorem Settled.reading {marks : Array Mark} (settled : classes.Settled marks) :
    classes.frame.Reading (Read marks) := by
  constructor
  case unique =>
    intro whole ty ty' first second
    exact Mark.done.inj (Eq.trans (Eq.symm first) second)
  case unit =>
    intro whole ty isUnit read
    have made := settled.made read
    cases bound : classes.boundOf whole <;>
      simp only [frame, bound, Bound.map, reduceCtorEq] at isUnit
    rw [bound] at made
    exact made
  case sum =>
    intro whole left right ty isSum read
    have made := settled.made read
    cases bound : classes.boundOf whole <;>
      simp only [frame, bound, Bound.map, reduceCtorEq, Bound.sum.injEq] at isSum
    rw [bound] at made
    rw [← isSum.1, ← isSum.2]
    exact made
  case prod =>
    intro whole left right ty isProd read
    have made := settled.made read
    cases bound : classes.boundOf whole <;>
      simp only [frame, bound, Bound.map, reduceCtorEq, Bound.prod.injEq] at isProd
    rw [bound] at made
    rw [← isProd.1, ← isProd.2]
    exact made

section Model

variable {T : Type} {frame : Frame T} {Reads : T → Ty → Prop} {value : Var → T}

/-- The type that a class is marked with is below whatever a model has it read as. -/
theorem Settled.below {marks : Array Mark} (settled : classes.Settled marks)
    (models : frame.Models value classes) (reading : frame.Reading Reads) {var : Var} {ty ty' : Ty}
    (read : Read marks (classes.root var) ty) (reads : Reads (value var) ty') : ty.Below ty' := by
  induction ty generalizing var ty' with
  | unit => exact .unit _
  | sum left right ihLeft ihRight =>
      have made := settled.made read
      have fits := (models var).2
      cases bound : classes.boundOf (classes.root var) with
      | free => simp [bound, Made] at made
      | unit => simp [bound, Made] at made
      | prod => simp [bound, Made] at made
      | sum leftPart rightPart =>
          rw [bound] at made fits
          rcases made with ⟨_, _, same, readLeft, readRight⟩
          cases same
          rcases reading.sum fits reads with ⟨leftTy, rightTy, rfl, readsLeft, readsRight⟩
          exact .sum (ihLeft readLeft readsLeft) (ihRight readRight readsRight)
  | prod left right ihLeft ihRight =>
      have made := settled.made read
      have fits := (models var).2
      cases bound : classes.boundOf (classes.root var) with
      | free => simp [bound, Made] at made
      | unit => simp [bound, Made] at made
      | sum => simp [bound, Made] at made
      | prod leftPart rightPart =>
          rw [bound] at made fits
          rcases made with ⟨_, _, same, readLeft, readRight⟩
          cases same
          rcases reading.prod fits reads with ⟨leftTy, rightTy, rfl, readsLeft, readsRight⟩
          exact .prod (ihLeft readLeft readsLeft) (ihRight readRight readsRight)

/-- Parts of a class that is read as a type are read as smaller types. -/
theorem reads_of_part (forest : classes.Forest) (models : frame.Models value classes)
    (reading : frame.Reading Reads) {whole part : Var} (isRoot : classes.root whole = whole)
    (isPart : classes.Part whole part) {ty : Ty} (reads : Reads (value whole) ty) :
    classes.root part = part ∧ ∃ partTy, Reads (value part) partTy ∧ sizeOf partTy < sizeOf ty := by
  rcases isPart with ⟨var, member, rfl⟩
  refine ⟨forest.root_root var, ?_⟩
  have fits := (models whole).2
  rw [isRoot] at fits
  rw [(models var).1]
  cases bound : classes.boundOf whole with
  | free => simp [bound, Bound.parts] at member
  | unit => simp [bound, Bound.parts] at member
  | sum left right =>
      rw [bound] at fits
      rcases reading.sum fits reads with ⟨leftTy, rightTy, rfl, readsLeft, readsRight⟩
      simp only [bound, Bound.parts, List.mem_cons, List.not_mem_nil, or_false] at member
      rcases member with rfl | rfl
      · exact ⟨leftTy, readsLeft, by simp only [Ty.sum.sizeOf_spec]; omega⟩
      · exact ⟨rightTy, readsRight, by simp only [Ty.sum.sizeOf_spec]; omega⟩
  | prod left right =>
      rw [bound] at fits
      rcases reading.prod fits reads with ⟨leftTy, rightTy, rfl, readsLeft, readsRight⟩
      simp only [bound, Bound.parts, List.mem_cons, List.not_mem_nil, or_false] at member
      rcases member with rfl | rfl
      · exact ⟨leftTy, readsLeft, by simp only [Ty.prod.sizeOf_spec]; omega⟩
      · exact ⟨rightTy, readsRight, by simp only [Ty.prod.sizeOf_spec]; omega⟩

theorem reads_of_parts (forest : classes.Forest) (models : frame.Models value classes)
    (reading : frame.Reading Reads) {whole part : Var} (isRoot : classes.root whole = whole)
    (parts : Relation.TransGen classes.Part whole part) {ty : Ty} (reads : Reads (value whole) ty) :
    classes.root part = part ∧ ∃ partTy, Reads (value part) partTy ∧ sizeOf partTy < sizeOf ty := by
  induction parts with
  | single isPart => exact reads_of_part forest models reading isRoot isPart reads
  | tail _ isPart ih =>
      rcases ih with ⟨isRoot, middleTy, readsMiddle, smaller⟩
      rcases reads_of_part forest models reading isRoot isPart readsMiddle with
        ⟨isRoot, partTy, readsPart, smallest⟩
      exact ⟨isRoot, partTy, readsPart, Nat.lt_trans smallest smaller⟩

/-- A class that is read as a type has no part that is a part of itself. -/
theorem not_cyclic_of_reads (forest : classes.Forest) (models : frame.Models value classes)
    (reading : frame.Reading Reads) {var : Var} {ty : Ty} (reads : Reads (value var) ty) :
    ¬ classes.Cyclic (classes.root var) := by
  rintro ⟨whole, below, around⟩
  rw [← (models var).1] at reads
  obtain ⟨isRoot, wholeTy, readsWhole⟩ : classes.root whole = whole ∧
      ∃ wholeTy, Reads (value whole) wholeTy := by
    rcases Relation.reflTransGen_iff_eq_or_transGen.mp below with rfl | parts
    · exact ⟨forest.root_root var, ty, reads⟩
    · rcases reads_of_parts forest models reading (forest.root_root var) parts reads with
        ⟨isRoot, wholeTy, readsWhole, -⟩
      exact ⟨isRoot, wholeTy, readsWhole⟩
  rcases reads_of_parts forest models reading isRoot around readsWhole with
    ⟨-, wholeTy', readsWhole', smaller⟩
  rw [reading.unique readsWhole' readsWhole] at smaller
  exact Nat.lt_irrefl _ smaller

end Model

section Walk

/-- A class has not been entered. -/
def isUnvisited : Mark → Bool
  | .unvisited => true
  | _ => false

/-- The number of classes that have not been entered. -/
def unvisited (marks : Array Mark) : Nat :=
  marks.countP isUnvisited

theorem unvisited_setIfInBounds {marks : Array Mark} {var : Var} (inside : var < marks.size)
    (mark : Mark) :
    unvisited (marks.setIfInBounds var mark) +
        (if isUnvisited (marks.getD var .unvisited) then 1 else 0) =
      unvisited marks + (if isUnvisited mark then 1 else 0) := by
  have present : marks.getD var .unvisited = marks[var] := by
    simp [Array.getD_eq_getD_getElem?, inside]
  have counted : isUnvisited marks[var] → 0 < marks.countP isUnvisited := by
    intro isTrue
    exact Array.countP_pos_iff.mpr ⟨_, Array.getElem_mem inside, isTrue⟩
  rw [unvisited, unvisited, present, Array.setIfInBounds, dif_pos inside, Array.countP_set]
  split
  case isTrue here =>
    have := counted here
    omega
  case isFalse => omega

variable (classes) in
/-- What a finished visit of some classes does to marks: the classes have types, and nothing that
was there before has changed. -/
structure Visits (targets : List Var) (marks marks' : Array Mark) : Prop where
  settled : classes.Settled marks'
  keeps : ∀ {var ty}, Read marks var ty → Read marks' var ty
  entered_iff : ∀ var, Entered marks' var ↔ Entered marks var
  reads : ∀ var ∈ targets, ∃ ty, Read marks' var ty

variable (classes) in
/-- A walk gets past the visits of some classes. -/
def Passes (node : Nat) (targets : List Var) (marks : Array Mark) : Prop :=
  ∃ marks' cost, classes.Visits targets marks marks' ∧
    cost + 3 * unvisited marks' ≤ targets.length + 3 * unvisited marks ∧
    ∀ fuel rest, classes.walk node (cost + fuel) (targets.map .enter ++ rest) marks =
      classes.walk node fuel rest marks'

variable (classes) in
/-- A walk fails in the visits of some classes. -/
def Fails (node : Nat) (targets : List Var) (marks : Array Mark) : Prop :=
  (∃ target ∈ targets, classes.Cyclic target) ∧
    ∀ fuel rest, targets.length + 3 * unvisited marks ≤ fuel →
      classes.walk node fuel (targets.map .enter ++ rest) marks = .error (.occursCheck node)

variable {node : Nat} {marks : Array Mark}

theorem Visits.trans {first second : List Var} {marks' marks'' : Array Mark}
    (visitsFirst : classes.Visits first marks marks')
    (visitsSecond : classes.Visits second marks' marks'') :
    classes.Visits (first ++ second) marks marks'' where
  settled := visitsSecond.settled
  keeps read := visitsSecond.keeps (visitsFirst.keeps read)
  entered_iff var := (visitsSecond.entered_iff var).trans (visitsFirst.entered_iff var)
  reads := by
    intro var member
    rcases List.mem_append.mp member with inFirst | inSecond
    · rcases visitsFirst.reads var inFirst with ⟨ty, read⟩
      exact ⟨ty, visitsSecond.keeps read⟩
    · exact visitsSecond.reads var inSecond

/-- Visits one after another, each of which passes or fails. -/
theorem passes_or_fails_list {limit : Nat}
    (single : ∀ marks target, unvisited marks ≤ limit → classes.Settled marks →
      target < classes.size → (∀ var, Entered marks var → Relation.TransGen classes.Part var target) →
      classes.Passes node [target] marks ∨ classes.Fails node [target] marks)
    (targets : List Var) (few : unvisited marks ≤ limit) (settled : classes.Settled marks)
    (inside : ∀ target ∈ targets, target < classes.size)
    (path : ∀ target ∈ targets, ∀ var, Entered marks var →
      Relation.TransGen classes.Part var target) :
    classes.Passes node targets marks ∨ classes.Fails node targets marks := by
  induction targets generalizing marks with
  | nil =>
      refine .inl ⟨marks, 0, ⟨settled, fun read => read, fun _ => Iff.rfl, by simp⟩, by simp, ?_⟩
      intro fuel rest
      rw [Nat.zero_add]
      rfl
  | cons target targets ih =>
      simp only [List.forall_mem_cons] at inside path
      rcases single marks target few settled inside.1 path.1 with
        ⟨marks', cost, visits, bound, passes⟩ | ⟨⟨culprit, isTarget, cyclic⟩, fails⟩
      · rw [List.length_singleton] at bound
        have path' : ∀ other ∈ targets, ∀ var, Entered marks' var →
            Relation.TransGen classes.Part var other := by
          intro other member var entered
          exact path.2 other member var ((visits.entered_iff var).mp entered)
        rcases ih (by omega) visits.settled inside.2 path' with
          ⟨marks'', cost', visits', bound', passes'⟩ | ⟨⟨culprit, member, cyclic⟩, fails'⟩
        · refine .inl ⟨marks'', cost + cost', visits.trans visits', ?_, ?_⟩
          · rw [List.length_cons]
            omega
          · intro fuel rest
            have first := passes (cost' + fuel) (targets.map .enter ++ rest)
            rw [Nat.add_assoc]
            exact first.trans (passes' fuel rest)
        · refine .inr ⟨⟨culprit, List.mem_cons_of_mem _ member, cyclic⟩, ?_⟩
          intro fuel rest enough
          rw [List.length_cons] at enough
          rcases Nat.exists_eq_add_of_le (show cost ≤ fuel by omega) with ⟨fuel, rfl⟩
          exact (passes fuel _).trans (fails' fuel rest (by omega))
      · rw [List.mem_singleton] at isTarget
        subst isTarget
        refine .inr ⟨⟨culprit, List.mem_cons_self, cyclic⟩, ?_⟩
        intro fuel rest enough
        rw [List.length_cons] at enough
        exact fails fuel (targets.map .enter ++ rest) (by rw [List.length_singleton]; omega)

theorem passes_of_read (settled : classes.Settled marks) {target : Var} {ty : Ty}
    (read : Read marks target ty) : classes.Passes node [target] marks := by
  refine ⟨marks, 1, ⟨settled, fun read => read, fun _ => Iff.rfl, ?_⟩, by simp, ?_⟩
  · intro var member
    rw [List.mem_singleton] at member
    exact ⟨ty, member ▸ read⟩
  · intro fuel rest
    rw [Read] at read
    rw [Nat.add_comm]
    simp only [List.map_cons, List.map_nil, List.cons_append, List.nil_append, walk, read]

theorem fails_of_entered {target : Var} (entered : Entered marks target)
    (path : ∀ var, Entered marks var → Relation.TransGen classes.Part var target) :
    classes.Fails node [target] marks := by
  refine ⟨⟨target, List.mem_singleton_self _, target, .refl, path target entered⟩, ?_⟩
  intro fuel rest enough
  rw [List.length_singleton] at enough
  rcases Nat.exists_eq_add_of_le' (show 1 ≤ fuel by omega) with ⟨fuel, rfl⟩
  rw [Entered] at entered
  simp only [List.map_cons, List.map_nil, List.cons_append, List.nil_append, walk, entered]

section Enter

variable {target : Var} (new : marks.getD target .unvisited = .unvisited)

include new

theorem read_of_enter (inside : target < marks.size) {var : Var} {ty : Ty} :
    Read (marks.setIfInBounds target .inProgress) var ty ↔ Read marks var ty := by
  rw [Read, Read, getD_setIfInBounds inside]
  split
  case isTrue same => simp [same, new]
  case isFalse => rfl

theorem settled_of_enter (settled : classes.Settled marks) (inside : target < classes.size) :
    classes.Settled (marks.setIfInBounds target .inProgress) := by
  have inside' : target < marks.size := settled.size_eq ▸ inside
  refine ⟨by simpa using settled.size_eq, ?_⟩
  intro var ty read
  have made := settled.made ((read_of_enter new inside').mp read)
  exact made.mono (read_of_enter new inside').mpr

theorem path_of_enter (inside : target < marks.size)
    (path : ∀ var, Entered marks var → Relation.TransGen classes.Part var target) {part : Var}
    (isPart : classes.Part target part) (var : Var)
    (entered : Entered (marks.setIfInBounds target .inProgress) var) :
    Relation.TransGen classes.Part var part := by
  rw [Entered, getD_setIfInBounds inside] at entered
  split at entered
  case isTrue same =>
    subst same
    exact .single isPart
  case isFalse => exact (path var entered).tail isPart

theorem unvisited_enter (inside : target < marks.size) :
    unvisited (marks.setIfInBounds target .inProgress) + 1 = unvisited marks := by
  simpa [new, isUnvisited] using unvisited_setIfInBounds inside .inProgress

/-- Once the parts of a class have types, the class is left with its own type. -/
theorem Visits.leave (inside : target < classes.size) (settled : classes.Settled marks)
    {marks' : Array Mark}
    (visits : classes.Visits ((classes.boundOf target).parts.map classes.root)
      (marks.setIfInBounds target .inProgress) marks') :
    classes.Visits [target] marks
        (marks'.setIfInBounds target
          (.done (classes.typeOfBound marks' (classes.boundOf target)))) ∧
      unvisited (marks'.setIfInBounds target
          (.done (classes.typeOfBound marks' (classes.boundOf target)))) = unvisited marks' := by
  have insideBefore : target < marks.size := settled.size_eq ▸ inside
  have insideAfter : target < marks'.size := visits.settled.size_eq ▸ inside
  have entered : Entered marks' target := by
    rw [visits.entered_iff, Entered, getD_setIfInBounds insideBefore, if_pos rfl]
  have lookup := getD_setIfInBounds insideAfter
    (.done (classes.typeOfBound marks' (classes.boundOf target)))
  -- The class was in progress, so giving it a type takes no type away.
  have keeps : ∀ {var ty}, Read marks' var ty → Read (marks'.setIfInBounds target
      (.done (classes.typeOfBound marks' (classes.boundOf target)))) var ty := by
    intro var ty read
    rw [Read, lookup, if_neg]
    · exact read
    · rintro rfl
      rw [Read, entered] at read
      cases read
  refine ⟨⟨⟨by simpa using visits.settled.size_eq, ?_⟩, ?_, ?_, ?_⟩, ?_⟩
  · intro var ty read
    rw [Read, lookup] at read
    split at read
    case isTrue same =>
      cases read
      rw [same]
      apply (made_typeOfBound _).mono keeps
      intro part member
      exact visits.reads _ (List.mem_map_of_mem member)
    case isFalse => exact (visits.settled.made read).mono keeps
  · intro var ty read
    exact keeps (visits.keeps ((read_of_enter new insideBefore).mpr read))
  · intro var
    have before := visits.entered_iff var
    rw [Entered, Entered, getD_setIfInBounds insideBefore] at before
    rw [Entered, Entered, lookup]
    split
    case isTrue same => simp [same, new]
    case isFalse differ => rw [before, if_neg differ]
  · intro var member
    rw [List.mem_singleton] at member
    exact ⟨_, by rw [Read, lookup, if_pos member]⟩
  · have counts := unvisited_setIfInBounds insideAfter
      (.done (classes.typeOfBound marks' (classes.boundOf target)))
    rw [entered] at counts
    simpa [isUnvisited] using counts

theorem walk_enter (fuel : Nat) (rest : List Visit) :
    classes.walk node (fuel + 1) (.enter target :: rest) marks =
      classes.walk node fuel
        (((classes.boundOf target).parts.map classes.root).map .enter ++ .leave target :: rest)
        (marks.setIfInBounds target .inProgress) := by
  rw [List.map_map]
  simp only [walk, new]
  rfl

theorem passes_or_fails_enter (inside : target < classes.size) (settled : classes.Settled marks)
    (parts : classes.Passes node ((classes.boundOf target).parts.map classes.root)
        (marks.setIfInBounds target .inProgress) ∨
      classes.Fails node ((classes.boundOf target).parts.map classes.root)
        (marks.setIfInBounds target .inProgress)) :
    classes.Passes node [target] marks ∨ classes.Fails node [target] marks := by
  have counts := unvisited_enter new (settled.size_eq ▸ inside)
  have short : ((classes.boundOf target).parts.map classes.root).length ≤ 2 := by
    rw [List.length_map]
    cases classes.boundOf target <;> simp [Bound.parts]
  rcases parts with ⟨marks', cost, visits, bound, passes⟩ | ⟨⟨culprit, member, cyclic⟩, fails⟩
  · rcases visits.leave new inside settled with ⟨visits', sameCount⟩
    refine .inl ⟨_, cost + 2, visits', ?_, ?_⟩
    · rw [sameCount, List.length_singleton]
      omega
    · intro fuel rest
      have regroup : cost + 2 + fuel = (cost + (fuel + 1)) + 1 := by omega
      rw [regroup]
      exact (walk_enter new _ rest).trans (passes (fuel + 1) (.leave target :: rest))
  · rcases List.mem_map.mp member with ⟨part, isPart, rfl⟩
    rcases cyclic with ⟨whole, below, around⟩
    refine .inr ⟨⟨target, List.mem_singleton_self _, whole, ?_, around⟩, ?_⟩
    · exact below.head ⟨part, isPart, rfl⟩
    · intro fuel rest enough
      rw [List.length_singleton] at enough
      rcases Nat.exists_eq_add_of_le' (show 1 ≤ fuel by omega) with ⟨fuel, rfl⟩
      exact (walk_enter new fuel rest).trans (fails fuel _ (by omega))

end Enter

/-- Entering a class, the walk gets past it or fails at a class that contains itself. -/
theorem passes_or_fails (forest : classes.Forest) {limit : Nat} {target : Var}
    (few : unvisited marks ≤ limit) (settled : classes.Settled marks)
    (inside : target < classes.size)
    (path : ∀ var, Entered marks var → Relation.TransGen classes.Part var target) :
    classes.Passes node [target] marks ∨ classes.Fails node [target] marks := by
  induction limit generalizing marks target with
  | zero =>
      have insideMarks : target < marks.size := settled.size_eq ▸ inside
      cases mark : marks.getD target .unvisited with
      | done ty => exact .inl (passes_of_read settled mark)
      | inProgress => exact .inr (fails_of_entered mark path)
      | unvisited =>
          have := unvisited_enter mark insideMarks
          omega
  | succ limit ih =>
      have insideMarks : target < marks.size := settled.size_eq ▸ inside
      cases mark : marks.getD target .unvisited with
      | done ty => exact .inl (passes_of_read settled mark)
      | inProgress => exact .inr (fails_of_entered mark path)
      | unvisited =>
          have fewer := unvisited_enter mark insideMarks
          apply passes_or_fails_enter mark inside settled
          apply passes_or_fails_list (fun _ _ => ih)
          · omega
          · exact settled_of_enter mark settled inside
          · intro part member
            rcases List.mem_map.mp member with ⟨var, isPart, rfl⟩
            exact forest.root_lt (forest.parts_lt target inside var isPart)
          · intro part member
            rcases List.mem_map.mp member with ⟨var, isPart, rfl⟩
            exact path_of_enter mark insideMarks path ⟨var, isPart, rfl⟩

/-- The type of a variable is found, unless one of its parts contains itself. -/
theorem resolve_spec (forest : classes.Forest) (settled : classes.Settled marks)
    (noneEntered : ∀ var, ¬ Entered marks var) {var : Var} (inside : var < classes.size) :
    (∃ ty marks', classes.resolve marks var node = .ok (ty, marks') ∧ classes.Settled marks' ∧
        (∀ var, ¬ Entered marks' var) ∧ (∀ {var ty}, Read marks var ty → Read marks' var ty) ∧
        Read marks' (classes.root var) ty) ∨
      classes.resolve marks var node = .error (.occursCheck node) ∧
        classes.Cyclic (classes.root var) := by
  have enough : unvisited marks ≤ classes.size :=
    settled.size_eq ▸ Array.countP_le_size
  have outcome : classes.Passes node [classes.root var] marks ∨
      classes.Fails node [classes.root var] marks :=
    passes_or_fails forest (Nat.le_refl _) settled (forest.root_lt inside)
      (fun other entered => absurd entered (noneEntered other))
  rcases outcome with
    ⟨marks', cost, visits, bound, passes⟩ | ⟨⟨culprit, member, cyclic⟩, fails⟩
  · left
    rw [List.length_singleton] at bound
    rcases Nat.exists_eq_add_of_le (show cost ≤ 3 * classes.size + 1 by omega) with ⟨fuel, fuel_eq⟩
    rcases visits.reads _ (List.mem_singleton_self _) with ⟨ty, read⟩
    have finished : classes.walk node (3 * classes.size + 1) [.enter (classes.root var)] marks =
        .ok marks' := by
      rw [fuel_eq]
      apply (passes fuel []).trans
      cases fuel <;> rfl
    refine ⟨ty, marks', ?_, visits.settled, ?_, visits.keeps, read⟩
    · rw [Read] at read
      rw [resolve, finished]
      change Except.ok ((marks'.getD (classes.root var) .unvisited).ty, marks') = _
      rw [read]
      rfl
    · intro other entered
      exact noneEntered other ((visits.entered_iff other).mp entered)
  · right
    rw [List.mem_singleton] at member
    subst member
    refine ⟨?_, cyclic⟩
    rw [resolve]
    have failed := fails (3 * classes.size + 1) [] (by rw [List.length_singleton]; omega)
    rw [List.append_nil] at failed
    exact congrArg (· >>= _) failed

end Walk

end Classes

end Simplicity.Typing
