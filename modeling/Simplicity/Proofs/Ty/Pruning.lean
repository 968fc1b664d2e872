import Mathlib.Algebra.Ring.Nat
import Simplicity.Ty.Basic

/-!
# The pruning order on types

A type is below another one if it can be made from it by replacing parts with the unit type. The
unit type is below every type, and otherwise only types with the same constructor compare, part by
part. Of two types that are below each other neither has been pruned, so they are equal.
-/

namespace Simplicity

/-- The first type is the second one with some of its parts replaced by the unit type. -/
inductive Ty.Below : Ty → Ty → Prop where
  | unit (ty : Ty) : Below .unit ty
  | sum {left right left' right' : Ty} (belowLeft : Below left left')
      (belowRight : Below right right') : Below (.sum left right) (.sum left' right')
  | prod {left right left' right' : Ty} (belowLeft : Below left left')
      (belowRight : Below right right') : Below (.prod left right) (.prod left' right')

namespace Ty.Below

theorem refl (ty : Ty) : Below ty ty := by
  induction ty with
  | unit => exact .unit _
  | sum left right ihLeft ihRight => exact .sum ihLeft ihRight
  | prod left right ihLeft ihRight => exact .prod ihLeft ihRight

theorem antisymm {left right : Ty} (below : Below left right) (above : Below right left) :
    left = right := by
  induction below with
  | unit ty =>
      cases above with
      | unit => rfl
  | sum _ _ ihLeft ihRight =>
      cases above with
      | sum aboveLeft aboveRight => rw [ihLeft aboveLeft, ihRight aboveRight]
  | prod _ _ ihLeft ihRight =>
      cases above with
      | prod aboveLeft aboveRight => rw [ihLeft aboveLeft, ihRight aboveRight]

/-- A type takes at least as many bits as what is left of it. -/
theorem width_le {left right : Ty} (below : Below left right) : left.width ≤ right.width := by
  induction below with
  | unit ty => exact Nat.zero_le _
  | sum _ _ ihLeft ihRight => simp only [width]; omega
  | prod _ _ ihLeft ihRight => simp only [width]; omega

end Ty.Below

/-- Both ends of an arrow are below those of another one. -/
structure Arrow.Below (arrow other : Arrow) : Prop where
  source : arrow.source.Below other.source
  target : arrow.target.Below other.target

theorem Arrow.Below.refl (arrow : Arrow) : arrow.Below arrow :=
  ⟨.refl _, .refl _⟩

theorem Arrow.Below.antisymm {arrow other : Arrow} (below : arrow.Below other)
    (above : other.Below arrow) : arrow = other := by
  rcases arrow with ⟨source, target⟩
  rcases other with ⟨source', target'⟩
  have sameSource : source = source' := below.source.antisymm above.source
  have sameTarget : target = target' := below.target.antisymm above.target
  rw [sameSource, sameTarget]

end Simplicity
