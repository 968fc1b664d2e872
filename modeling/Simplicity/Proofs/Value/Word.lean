import Simplicity.Proofs.Value.Compact

/-!
# Words as values

A word of `2 ^ level` bits is written as its bits, the most significant first. The pairs of which it
consists follow its type, so the encoding of a word is that of its high half and then that of its low
half, and halving a number and taking its bits commute.

The number that a word is made of has 64 bits. A half that is as wide as the number or wider must not be
shifted or masked, since the processor takes the distance of a shift modulo 64. With these halves taken
apart, machine words give the same value as numbers do.
-/

namespace Simplicity

open BitString (lowBits)

theorem BitString.lowBits_add (value high low : Nat) :
    lowBits value (high + low) = lowBits (value >>> low) high ++ lowBits value low := by
  induction high with
  | zero => rw [Nat.zero_add, lowBits, List.nil_append]
  | succ high ih =>
      rw [Nat.add_right_comm, lowBits, ih, lowBits, Nat.testBit_shiftRight, Nat.add_comm low,
        List.cons_append]

/-- A string is made of the bits of the number that it writes. -/
theorem BitString.lowBits_natAt_length (bits : BitString) :
    lowBits (bits.natAt 0 bits.length) bits.length = bits.toList := by
  simp only [lowBits_natAt, Nat.zero_add, toList]

theorem Ty.width_word_ne_zero (level : Nat) : (Ty.word level).width ≠ 0 := by
  induction level with
  | zero => exact width_sum_ne_zero _ _
  | succ level ih =>
      change min ((Ty.word level).width + (Ty.word level).width) maxWidth ≠ 0
      have positive : 0 < maxWidth := by decide
      omega

namespace Value

/-- The bits of a machine word above its low ones. -/
def highHalf (value : UInt64) (half : Nat) : UInt64 :=
  if 64 ≤ half then 0 else value >>> UInt64.ofNat half

/-- The low bits of a machine word. -/
def lowHalf (value : UInt64) (half : Nat) : UInt64 :=
  value &&& if 64 ≤ half then .ofNat (2 ^ 64 - 1) else (1 <<< UInt64.ofNat half) - 1

/-- The low bits of a machine word as nested pairs, the high half first. -/
def machineWord (value : UInt64) (bits : Nat) : Value :=
  if bits ≤ 1 then bit (value &&& 1 == 1)
  else .pair (machineWord (highHalf value (bits / 2)) (bits / 2))
    (machineWord (lowHalf value (bits / 2)) (bits / 2))
termination_by bits

theorem toNat_highHalf (value : UInt64) (half : Nat) :
    (highHalf value half).toNat = value.toNat >>> half := by
  have small := value.toNat_lt
  unfold highHalf
  split
  case isTrue wide =>
    have wider : 2 ^ 64 ≤ 2 ^ half := Nat.pow_le_pow_right (by decide) wide
    rw [Nat.shiftRight_eq_div_pow, Nat.div_eq_of_lt (by omega)]
    rfl
  case isFalse narrow =>
    rw [UInt64.toNat_shiftRight, UInt64.toNat_ofNat_of_lt' (by change half < 2 ^ 64; omega),
      Nat.mod_eq_of_lt (by omega)]

theorem toNat_lowHalf (value : UInt64) (half : Nat) :
    (lowHalf value half).toNat = value.toNat % (1 <<< half) := by
  have small := value.toNat_lt
  rw [lowHalf, UInt64.toNat_and, Nat.one_shiftLeft]
  split
  case isTrue wide =>
    have wider : 2 ^ 64 ≤ 2 ^ half := Nat.pow_le_pow_right (by decide) wide
    rw [UInt64.toNat_ofNat_of_lt' (by decide), Nat.and_two_pow_sub_one_eq_mod,
      Nat.mod_eq_of_lt (by omega), Nat.mod_eq_of_lt (by omega)]
  case isFalse narrow =>
    have power : 2 ^ half < 2 ^ 64 := Nat.pow_lt_pow_right (by decide) (by omega)
    have shifted : ((1 : UInt64) <<< UInt64.ofNat half).toNat = 2 ^ half := by
      rw [UInt64.toNat_shiftLeft, UInt64.toNat_ofNat_of_lt' (by change half < 2 ^ 64; omega),
        Nat.mod_eq_of_lt (show half < 64 by omega)]
      change 1 <<< half % 2 ^ 64 = _
      rw [Nat.one_shiftLeft, Nat.mod_eq_of_lt power]
    have positive := Nat.two_pow_pos half
    rw [UInt64.toNat_sub_of_le _ _ (by rw [UInt64.le_iff_toNat_le, shifted]; exact positive), shifted]
    exact Nat.and_two_pow_sub_one_eq_mod _ _

/-- Machine words give the same values as numbers do. -/
theorem machineWord_eq (value : UInt64) (bits : Nat) :
    machineWord value bits = word value.toNat bits := by
  fun_induction machineWord value bits with
  | case1 value bits narrow =>
      have lowest : (value &&& 1 == 1) = value.toNat.testBit 0 := by
        rw [Nat.testBit_zero, ← Nat.and_one_is_mod]
        apply Bool.eq_iff_iff.mpr
        rw [beq_iff_eq, decide_eq_true_iff, ← UInt64.toNat_inj, UInt64.toNat_and]
        rfl
      rw [word, if_pos narrow, lowest]
  | case2 value bits wide ihHigh ihLow =>
      rw [word, if_neg wide, ihHigh, ihLow, toNat_highHalf, toNat_lowHalf]

/-- A word is encoded as its bits. -/
theorem encodes_word (value level : Nat) :
    (Ty.word level).Encodes (word value (2 ^ level)) (lowBits value (2 ^ level)) := by
  induction level generalizing value with
  | zero =>
      rw [word, if_pos (by decide : 2 ^ 0 ≤ 1), bit]
      change Ty.Encodes Ty.bit _ [value.testBit 0]
      cases value.testBit 0 with
      | false => exact .left (.empty rfl)
      | true => exact .right (.empty rfl)
  | succ level ih =>
      have positive := Nat.two_pow_pos level
      have halved : 2 ^ (level + 1) / 2 = 2 ^ level := by omega
      rw [word, if_neg (by omega), halved, Nat.pow_succ, Nat.mul_two, BitString.lowBits_add,
        Nat.one_shiftLeft, ← BitString.lowBits_mod_two_pow value]
      exact .pair (Ty.width_word_ne_zero (level + 1)) (ih _) (ih _)

theorem toBits_word (value level : Nat) :
    (word value (2 ^ level)).toBits (Ty.word level) = .ok (.ofBits (lowBits value (2 ^ level))) := by
  rw [toBits_eq_ok_iff, BitString.toList_ofBits]
  exact encodes_word value level

/-- The encoding of a machine word at the type of words of `2 ^ level` bits is as long as that, and it
writes the word modulo `2 ^ 2 ^ level`, the most significant bit first. In a type of more than 64 bits
zeros come before the bits of the machine word. -/
theorem toBits_machineWord (value : UInt64) (level : Nat) :
    machineWord value (2 ^ level) = word value.toNat (2 ^ level) ∧
    ∃ bits, (machineWord value (2 ^ level)).toBits (Ty.word level) = .ok bits ∧
      bits.length = 2 ^ level ∧
      bits.natAt 0 (2 ^ level) = value.toNat % 2 ^ 2 ^ level ∧
      bits.toList = lowBits (value.toNat % 2 ^ 2 ^ level) (2 ^ level) ∧
      bits.toList =
        List.replicate (2 ^ level - 64) false ++ lowBits value.toNat (min (2 ^ level) 64) := by
  have listed := BitString.toList_ofBits (lowBits value.toNat (2 ^ level))
  have length_eq : (BitString.ofBits (lowBits value.toNat (2 ^ level))).length = 2 ^ level := by
    rw [← BitString.length_toList, listed, BitString.length_lowBits]
  refine ⟨machineWord_eq value _, _, machineWord_eq value _ ▸ toBits_word value.toNat level,
    length_eq, ?_, ?_, ?_⟩
  · apply BitString.eq_of_lowBits_eq (BitString.natAt_lt _ _ _) (Nat.mod_lt _ (Nat.two_pow_pos _))
    have whole := BitString.lowBits_natAt_length (.ofBits (lowBits value.toNat (2 ^ level)))
    rw [length_eq, listed] at whole
    rw [whole, BitString.lowBits_mod_two_pow]
  · rw [listed, BitString.lowBits_mod_two_pow]
  · rw [listed]
    rcases Nat.le_total (2 ^ level) 64 with narrow | wide
    · rw [Nat.sub_eq_zero_of_le narrow, Nat.min_eq_left narrow]
      rfl
    · obtain ⟨extra, split⟩ := Nat.exists_eq_add_of_le wide
      rw [split, Nat.add_sub_cancel_left, Nat.min_eq_right (Nat.le_add_right 64 extra)]
      exact BitString.lowBits_add_of_lt value.toNat_lt extra

end Value

end Simplicity
