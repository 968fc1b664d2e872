import Mathlib.Order.Bounds.Basic
import Simplicity.Proofs.Bounds.Exact
import Simplicity.Proofs.Value.Inversion

/-!
# Widths as lengths of encodings

The exact width of a type is defined by a recursion of its own. Here it is tied to encodings: no encoding
at a type is longer than the width, and some encoding is exactly as long. The width that a type carries
may be cut off, but the one question that writers and readers ask of it, whether it is zero, has the same
answer as for the exact width, and the same as a look at the type itself: a type has bits if and only if
a sum occurs in it.
-/

namespace Simplicity

namespace Ty

variable {ty : Ty} {value : Value} {bits : List Bool}

/-- A sum occurs in the type. -/
def HasSum : Ty → Prop
  | .unit => False
  | .sum _ _ => True
  | .prod left right => left.HasSum ∨ right.HasSum

/-- Only a sum adds to the exact width. -/
theorem exactWidth_eq_zero_iff (ty : Ty) : ty.exactWidth = 0 ↔ ¬ ty.HasSum := by
  induction ty with
  | unit => simp [exactWidth, HasSum]
  | sum left right => simp [exactWidth, HasSum]
  | prod left right ihLeft ihRight =>
      rw [exactWidth, Nat.add_eq_zero_iff, ihLeft, ihRight, HasSum, not_or]

/-- Being cut off keeps a width from being zero. -/
theorem width_eq_zero_iff (ty : Ty) : ty.width = 0 ↔ ty.exactWidth = 0 := by
  have positive : 0 < maxWidth := by decide
  rw [width_eq_clamp, Bounds.clamp]
  omega

theorem Encodes.length_le_exactWidth (encodes : ty.Encodes value bits) :
    bits.length ≤ ty.exactWidth := by
  induction encodes with
  | empty narrow => exact Nat.zero_le _
  | left _ ih | right _ ih =>
      rw [List.length_cons, exactWidth]
      omega
  | pair wide _ _ ihFirst ihSecond =>
      rw [List.length_append, exactWidth]
      exact Nat.add_le_add ihFirst ihSecond

/-- Some value needs all the bits of the exact width: it takes the wider side of every sum. -/
theorem exists_encodes_of_exactWidth (ty : Ty) :
    ∃ value bits, ty.Encodes value bits ∧ bits.length = ty.exactWidth := by
  induction ty with
  | unit => exact ⟨.unit, [], .empty rfl, rfl⟩
  | sum left right ihLeft ihRight =>
      rcases Nat.le_total right.exactWidth left.exactWidth with wider | wider
      · rcases ihLeft with ⟨inner, bits, encodes, full⟩
        refine ⟨.left inner, _, .left encodes, ?_⟩
        rw [List.length_cons, full, exactWidth, max_eq_left wider, Nat.add_comm]
      · rcases ihRight with ⟨inner, bits, encodes, full⟩
        refine ⟨.right inner, _, .right encodes, ?_⟩
        rw [List.length_cons, full, exactWidth, max_eq_right wider, Nat.add_comm]
  | prod left right ihLeft ihRight =>
      by_cases narrow : (Ty.prod left right).width = 0
      · exact ⟨.unit, [], .empty narrow, ((width_eq_zero_iff _).mp narrow).symm⟩
      · rcases ihLeft with ⟨first, front, encodesFirst, fullFirst⟩
        rcases ihRight with ⟨second, back, encodesSecond, fullSecond⟩
        refine ⟨.pair first second, _, .pair narrow encodesFirst encodesSecond, ?_⟩
        rw [List.length_append, fullFirst, fullSecond, exactWidth]

/-- The exact width is the length of the longest encodings. -/
theorem isGreatest_exactWidth (ty : Ty) :
    IsGreatest {length | ∃ (value : Value) (bits : BitString),
      value.toBits ty = .ok bits ∧ bits.length = length} ty.exactWidth := by
  constructor
  · rcases ty.exists_encodes_of_exactWidth with ⟨value, bits, encodes, full⟩
    refine ⟨value, .ofBits bits, Value.toBits_eq_ok_iff.mpr ?_, ?_⟩
    · rwa [BitString.toList_ofBits]
    · rw [← BitString.length_toList, BitString.toList_ofBits, full]
  · rintro length ⟨value, bits, written, rfl⟩
    rw [← BitString.length_toList]
    exact (Value.toBits_eq_ok_iff.mp written).length_le_exactWidth

/-- Without bits every value is written as the empty bit string; with bits, some value is not. -/
theorem exactWidth_eq_zero_iff_toBits (ty : Ty) :
    ty.exactWidth = 0 ↔ ∀ value : Value, value.Inhabits ty → value.toBits ty = .ok .empty := by
  constructor
  · intro narrow value inhabits
    rcases exists_encodes_iff_inhabits.mpr inhabits with ⟨bits, encodes⟩
    have none : bits = [] := by
      apply List.eq_nil_of_length_eq_zero
      have := encodes.length_le_exactWidth
      omega
    rw [Value.toBits_eq_ok_iff, BitString.toList_empty, ← none]
    exact encodes
  · intro empty
    rcases ty.isGreatest_exactWidth.1 with ⟨value, bits, written, full⟩
    have inhabits := exists_encodes_iff_inhabits.mp ⟨_, Value.toBits_eq_ok_iff.mp written⟩
    rw [empty value inhabits, Except.ok.injEq] at written
    rw [← full, ← written]
    rfl

/-- The width that a type carries is the length of its longest encodings, unless that is more than the
highest width. It is zero exactly if no sum occurs in the type, and thus exactly if nothing is ever
written at it. -/
theorem width_eq_min_longest (ty : Ty) :
    ty.width = min ty.exactWidth (2 ^ 64 - 1) ∧
    IsGreatest {length | ∃ (value : Value) (bits : BitString),
      value.toBits ty = .ok bits ∧ bits.length = length} ty.exactWidth ∧
    (ty.width = 0 ↔ ¬ ty.HasSum) ∧
    (¬ ty.HasSum ↔ ∀ value : Value, value.Inhabits ty → value.toBits ty = .ok .empty) := by
  refine ⟨ty.width_eq_clamp, ty.isGreatest_exactWidth, ?_, ?_⟩
  · rw [width_eq_zero_iff, exactWidth_eq_zero_iff]
  · rw [← exactWidth_eq_zero_iff, exactWidth_eq_zero_iff_toBits]

end Ty

end Simplicity
