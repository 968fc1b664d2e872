import Simplicity.Proofs.Hash.Collision
import Simplicity.Ty.Basic

/-!
# Types and their roots

The root of a type commits to the type: the tag that it starts from tells its constructor, and the
digests that it absorbs tell its parts.
-/

namespace Simplicity.Ty

/-- The name of the tag for the outermost constructor. -/
def tagName : Ty → String
  | .unit => "unit"
  | .sum _ _ => "sum"
  | .prod _ _ => "prod"

/-- The roots of the parts. -/
def partRoots : Ty → List Digest
  | .unit => []
  | .sum left right | .prod left right => [left.root, right.root]

theorem root_eq (ty : Ty) : ty.root = Sha256.run (rootBlocks "Type" ty.tagName ty.partRoots) := by
  cases ty with
  | unit => rfl
  | sum left right | prod left right =>
      rw [run_rootBlocks]
      simp [partRoots, Digest.blocks]
      rfl

/-- The applications of the compression function that make the root of a type. -/
def trail : Ty → List (Digest × Block)
  | .unit => rootTrail "Type" "unit" []
  | .sum left right => rootTrail "Type" "sum" [left.root, right.root] ++ (left.trail ++ right.trail)
  | .prod left right =>
      rootTrail "Type" "prod" [left.root, right.root] ++ (left.trail ++ right.trail)

theorem rootTrail_subset_trail (ty : Ty) :
    rootTrail "Type" ty.tagName ty.partRoots ⊆ ty.trail := by
  cases ty with
  | unit => exact List.Subset.refl _
  | sum left right => exact List.subset_append_left _ _
  | prod left right => exact List.subset_append_left _ _

variable {applications : List (Digest × Block)}

/-- The constructor of a type and the roots of its parts can be read off its root. -/
theorem tagName_eq_of_root_eq (free : Sha256.CollisionFree applications) {ty ty' : Ty}
    (within : ty.trail ⊆ applications) (within' : ty'.trail ⊆ applications)
    (same : ty.root = ty'.root) : ty.tagName = ty'.tagName ∧ ty.partRoots = ty'.partRoots := by
  rw [root_eq, root_eq] at same
  rcases rootBlocks_injective free (List.Subset.trans ty.rootTrail_subset_trail within)
    (List.Subset.trans ty'.rootTrail_subset_trail within') same with ⟨sameName, sameBlocks⟩
  refine ⟨sameName, Digest.blocks_injective ?_ sameBlocks⟩
  cases ty <;> cases ty' <;> simp [tagName, partRoots] at sameName ⊢

/-- A type can be read off its root. -/
theorem root_injective (free : Sha256.CollisionFree applications) {ty ty' : Ty}
    (within : ty.trail ⊆ applications) (within' : ty'.trail ⊆ applications)
    (same : ty.root = ty'.root) : ty = ty' := by
  induction ty generalizing ty' with
  | unit =>
      have sameName := (tagName_eq_of_root_eq free within within' same).1
      cases ty' with
      | unit => rfl
      | sum | prod => simp [tagName] at sameName
  | sum left right ihLeft ihRight =>
      rcases tagName_eq_of_root_eq free within within' same with ⟨sameName, sameParts⟩
      cases ty' with
      | unit | prod => simp [tagName] at sameName
      | sum left' right' =>
          rw [trail, List.append_subset, List.append_subset] at within within'
          simp only [partRoots, List.cons.injEq, and_true] at sameParts
          rw [ihLeft within.2.1 within'.2.1 sameParts.1, ihRight within.2.2 within'.2.2 sameParts.2]
  | prod left right ihLeft ihRight =>
      rcases tagName_eq_of_root_eq free within within' same with ⟨sameName, sameParts⟩
      cases ty' with
      | unit | sum => simp [tagName] at sameName
      | prod left' right' =>
          rw [trail, List.append_subset, List.append_subset] at within within'
          simp only [partRoots, List.cons.injEq, and_true] at sameParts
          rw [ihLeft within.2.1 within'.2.1 sameParts.1, ihRight within.2.2 within'.2.2 sameParts.2]

end Simplicity.Ty
