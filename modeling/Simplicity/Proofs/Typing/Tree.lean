import Simplicity.Proofs.Typing.Term

/-!
# Infinite types

A class of variables may have to contain itself, and then no type can be assigned to it. But a tree
can, which goes on forever: the constructor of the class at the top, and the trees of its parts below.
Trees are a frame in which every term stands for something, whatever trees its unknowns stand for. So
classes always have a model in which terms can be evaluated, even if some of them are cyclic.

Where a type is read off a class, the tree of the class is that type.
-/

namespace Simplicity.Typing

/-- A type that may go on forever, given by the constructor at each position. A way from the top goes
to the left part with `false` and to the right part with `true`; below the unit type everything is
the unit type. -/
def Tree : Type :=
  List Bool → Ty.Shape

namespace Tree

def unit : Tree :=
  fun _ => .unit

/-- The tree with a constructor at the top and the given parts. -/
def node (shape : Ty.Shape) (left right : Tree) : Tree
  | [] => shape
  | false :: path => left path
  | true :: path => right path

def ofTy : Ty → Tree
  | .unit => unit
  | .sum left right => node .sum (ofTy left) (ofTy right)
  | .prod left right => node .prod (ofTy left) (ofTy right)

/-- The tree that a term stands for. -/
def eval (unknowns : Unknown → Tree) : Term → Tree
  | .unknown unknown => unknowns unknown
  | .unit => unit
  | .sum left right => node .sum (eval unknowns left) (eval unknowns right)
  | .prod left right => node .prod (eval unknowns left) (eval unknowns right)

theorem node_inj {shape shape' : Ty.Shape} {left right left' right' : Tree}
    (same : node shape left right = node shape' left' right') :
    shape = shape' ∧ left = left' ∧ right = right' :=
  ⟨congrFun same [], funext fun path => congrFun same (false :: path),
    funext fun path => congrFun same (true :: path)⟩

theorem unit_ne_node {shape : Ty.Shape} (compound : shape ≠ .unit) (left right : Tree) :
    unit ≠ node shape left right :=
  fun same => compound (congrFun same []).symm

theorem ofTy_injective {ty ty' : Ty} (same : ofTy ty = ofTy ty') : ty = ty' := by
  induction ty generalizing ty' with
  | unit =>
      cases ty' with
      | unit => rfl
      | sum => exact absurd same (unit_ne_node (by decide) _ _)
      | prod => exact absurd same (unit_ne_node (by decide) _ _)
  | sum left right ihLeft ihRight =>
      cases ty' with
      | unit => exact absurd same.symm (unit_ne_node (by decide) _ _)
      | sum =>
          rcases node_inj same with ⟨-, sameLeft, sameRight⟩
          rw [ihLeft sameLeft, ihRight sameRight]
      | prod => cases (node_inj same).1
  | prod left right ihLeft ihRight =>
      cases ty' with
      | unit => exact absurd same.symm (unit_ne_node (by decide) _ _)
      | sum => cases (node_inj same).1
      | prod =>
          rcases node_inj same with ⟨-, sameLeft, sameRight⟩
          rw [ihLeft sameLeft, ihRight sameRight]

theorem eval_ofTy (unknowns : Unknown → Tree) (ty : Ty) : eval unknowns (.ofTy ty) = ofTy ty := by
  induction ty with
  | unit => rfl
  | sum left right ihLeft ihRight => rw [Term.ofTy, eval, ihLeft, ihRight, ofTy]
  | prod left right ihLeft ihRight => rw [Term.ofTy, eval, ihLeft, ihRight, ofTy]

end Tree

namespace Frame

/-- Trees can be assigned to variables. -/
def trees : Frame Tree where
  IsUnit whole := whole = .unit
  IsSum whole left right := whole = .node .sum left right
  IsProd whole left right := whole = .node .prod left right
  sum_inj first second := (Tree.node_inj (first.symm.trans second)).2
  prod_inj first second := (Tree.node_inj (first.symm.trans second)).2
  unit_ne_sum first second := Tree.unit_ne_node (by decide) _ _ (first.symm.trans second)
  unit_ne_prod first second := Tree.unit_ne_node (by decide) _ _ (first.symm.trans second)
  sum_ne_prod first second := absurd (Tree.node_inj (first.symm.trans second)).1 (by decide)

section Fits

variable {value : Var → Tree} {whole : Tree} {left right : Var}

@[simp]
theorem fits_trees_unit : trees.Fits value .unit whole ↔ whole = .unit :=
  Iff.rfl

@[simp]
theorem fits_trees_sum :
    trees.Fits value (.sum left right) whole ↔ whole = .node .sum (value left) (value right) :=
  Iff.rfl

@[simp]
theorem fits_trees_prod :
    trees.Fits value (.prod left right) whole ↔ whole = .node .prod (value left) (value right) :=
  Iff.rfl

end Fits

theorem evaluates_trees (unknowns : Unknown → Tree) : trees.Evaluates (Tree.eval unknowns) where
  unit := rfl
  sum _ _ := rfl
  prod _ _ := rfl

theorem trees_reading : trees.Reading fun tree ty => tree = Tree.ofTy ty := by
  constructor
  case unique =>
    intro whole ty ty' reads reads'
    exact Tree.ofTy_injective (reads.symm.trans reads')
  case unit =>
    intro whole ty isUnit reads
    exact Tree.ofTy_injective (reads.symm.trans isUnit)
  case sum =>
    intro whole left right ty isSum reads
    rw [isSum] at reads
    cases ty with
    | unit => exact absurd reads.symm (Tree.unit_ne_node (by decide) _ _)
    | sum leftTy rightTy => exact ⟨leftTy, rightTy, rfl, (Tree.node_inj reads).2⟩
    | prod => cases (Tree.node_inj reads).1
  case prod =>
    intro whole left right ty isProd reads
    rw [isProd] at reads
    cases ty with
    | unit => exact absurd reads.symm (Tree.unit_ne_node (by decide) _ _)
    | sum => cases (Tree.node_inj reads).1
    | prod leftTy rightTy => exact ⟨leftTy, rightTy, rfl, (Tree.node_inj reads).2⟩

end Frame

namespace Classes

variable (classes : Classes)

/-- The constructor that is found when a way is followed through the parts of a class. -/
def shapeAt : List Bool → Var → Ty.Shape
  | [], var => (classes.boundOf (classes.root var)).shape
  | goesRight :: path, var =>
      match classes.boundOf (classes.root var) with
      | .free | .unit => .unit
      | .sum left right | .prod left right => shapeAt path (if goesRight then right else left)

/-- The tree of the class of a variable. -/
def tree (var : Var) : Tree :=
  fun path => classes.shapeAt path var

variable {classes}

theorem tree_root (forest : classes.Forest) (var : Var) :
    classes.tree (classes.root var) = classes.tree var := by
  funext path
  cases path with
  | nil => simp only [tree, shapeAt, forest.root_root]
  | cons goesRight path => simp only [tree, shapeAt, forest.root_root]

theorem tree_of_unit {var : Var}
    (isBound : classes.boundOf (classes.root var) = .free ∨
      classes.boundOf (classes.root var) = .unit) : classes.tree var = .unit := by
  funext path
  rcases isBound with isFree | isUnit
  · cases path with
    | nil => simp only [tree, shapeAt, isFree, Bound.shape, Tree.unit]
    | cons goesRight path => simp only [tree, shapeAt, isFree, Tree.unit]
  · cases path with
    | nil => simp only [tree, shapeAt, isUnit, Bound.shape, Tree.unit]
    | cons goesRight path => simp only [tree, shapeAt, isUnit, Tree.unit]

theorem tree_of_sum {var left right : Var}
    (isBound : classes.boundOf (classes.root var) = .sum left right) :
    classes.tree var = .node .sum (classes.tree left) (classes.tree right) := by
  funext path
  cases path with
  | nil => simp only [tree, shapeAt, isBound, Bound.shape, Tree.node]
  | cons goesRight path =>
      cases goesRight <;> simp [tree, shapeAt, isBound, Tree.node]

theorem tree_of_prod {var left right : Var}
    (isBound : classes.boundOf (classes.root var) = .prod left right) :
    classes.tree var = .node .prod (classes.tree left) (classes.tree right) := by
  funext path
  cases path with
  | nil => simp only [tree, shapeAt, isBound, Bound.shape, Tree.node]
  | cons goesRight path =>
      cases goesRight <;> simp [tree, shapeAt, isBound, Tree.node]

/-- Trees are a model of any classes, cyclic or not. -/
theorem models_tree (forest : classes.Forest) : Frame.trees.Models classes.tree classes := by
  intro var
  refine ⟨tree_root forest var, ?_⟩
  cases bound : classes.boundOf (classes.root var) with
  | free => trivial
  | unit => exact tree_of_unit (.inr bound)
  | sum left right => exact tree_of_sum bound
  | prod left right => exact tree_of_prod bound

/-- The tree of a class that is marked with a type is that type. -/
theorem Settled.tree_eq {marks : Array Mark} (settled : classes.Settled marks) {var : Var} {ty : Ty}
    (read : Read marks (classes.root var) ty) : classes.tree var = Tree.ofTy ty := by
  induction ty generalizing var with
  | unit =>
      have made := settled.made read
      cases bound : classes.boundOf (classes.root var) with
      | free => exact tree_of_unit (.inl bound)
      | unit => exact tree_of_unit (.inr bound)
      | sum => simp [bound, Made] at made
      | prod => simp [bound, Made] at made
  | sum left right ihLeft ihRight =>
      have made := settled.made read
      cases bound : classes.boundOf (classes.root var) with
      | free => simp [bound, Made] at made
      | unit => simp [bound, Made] at made
      | prod => simp [bound, Made] at made
      | sum leftPart rightPart =>
          rw [bound] at made
          rcases made with ⟨_, _, same, readLeft, readRight⟩
          cases same
          rw [tree_of_sum bound, ihLeft readLeft, ihRight readRight, Tree.ofTy]
  | prod left right ihLeft ihRight =>
      have made := settled.made read
      cases bound : classes.boundOf (classes.root var) with
      | free => simp [bound, Made] at made
      | unit => simp [bound, Made] at made
      | sum => simp [bound, Made] at made
      | prod leftPart rightPart =>
          rw [bound] at made
          rcases made with ⟨_, _, same, readLeft, readRight⟩
          cases same
          rw [tree_of_prod bound, ihLeft readLeft, ihRight readRight, Tree.ofTy]

end Classes

end Simplicity.Typing
