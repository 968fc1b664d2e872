import Simplicity.Proofs.Dag
import Simplicity.Proofs.Stream.Recognition
import Simplicity.Witness

/-!
# Compact encodings

`Ty.Encodes` states which bits encode a value at a type. Three loops follow it, each with a stack of its
own: the writer of values keeps the values and types that are still to be written, the decoder of
witnesses keeps the types of which a value is still to be copied, and the reader of values keeps steps
and, apart from them, the values that it has read. A type of width zero is passed over by all of them, so
that it has a single value and no bits.

What the first two do with a stack is to encode its entries one after another. The reader, when it comes
to a type, reads an encoding, puts the value on top of those that it has, and goes on with the steps that
were there before.
-/

namespace Simplicity

/-- The bits encode the value at the type. -/
inductive Ty.Encodes : Ty → Value → List Bool → Prop where
  | empty {ty : Ty} (narrow : ty.width = 0) : Encodes ty .unit []
  | left {leftTy rightTy : Ty} {inner : Value} {bits : List Bool}
      (encodes : Encodes leftTy inner bits) :
      Encodes (.sum leftTy rightTy) (.left inner) (false :: bits)
  | right {leftTy rightTy : Ty} {inner : Value} {bits : List Bool}
      (encodes : Encodes rightTy inner bits) :
      Encodes (.sum leftTy rightTy) (.right inner) (true :: bits)
  | pair {firstTy secondTy : Ty} {first second : Value} {front back : List Bool}
      (wide : (Ty.prod firstTy secondTy).width ≠ 0) (encodesFirst : Encodes firstTy first front)
      (encodesSecond : Encodes secondTy second back) :
      Encodes (.prod firstTy secondTy) (.pair first second) (front ++ back)

namespace Ty

variable {ty : Ty} {value : Value} {bits : List Bool}

theorem width_sum_ne_zero (left right : Ty) : (Ty.sum left right).width ≠ 0 := by
  change min (1 + max left.width right.width) maxWidth ≠ 0
  have positive : 0 < maxWidth := by decide
  omega

theorem encodes_iff_of_width_eq_zero (narrow : ty.width = 0) :
    ty.Encodes value bits ↔ value = .unit ∧ bits = [] := by
  constructor
  · intro encodes
    cases encodes with
    | empty => exact ⟨rfl, rfl⟩
    | left => exact absurd narrow (width_sum_ne_zero _ _)
    | right => exact absurd narrow (width_sum_ne_zero _ _)
    | pair wide => exact absurd narrow wide
  · rintro ⟨rfl, rfl⟩
    exact .empty narrow

/-- The bits encode values at types, one after another. -/
def EncodesAll : List (Value × Ty) → List Bool → Prop
  | [], bits => bits = []
  | (value, ty) :: pending, bits =>
      ∃ front back, ty.Encodes value front ∧ EncodesAll pending back ∧ bits = front ++ back

section EncodesAll

variable {pending : List (Value × Ty)} {inner first second : Value}
  {leftTy rightTy firstTy secondTy : Ty}

theorem encodesAll_left_iff : EncodesAll ((.left inner, .sum leftTy rightTy) :: pending) bits ↔
    ∃ rest, EncodesAll ((inner, leftTy) :: pending) rest ∧ bits = false :: rest := by
  constructor
  · rintro ⟨_, back, encodes, encodesAll, rfl⟩
    cases encodes with
    | left encodes => exact ⟨_, ⟨_, back, encodes, encodesAll, rfl⟩, rfl⟩
  · rintro ⟨_, ⟨front, back, encodes, encodesAll, rfl⟩, rfl⟩
    exact ⟨_, back, .left encodes, encodesAll, rfl⟩

theorem encodesAll_right_iff : EncodesAll ((.right inner, .sum leftTy rightTy) :: pending) bits ↔
    ∃ rest, EncodesAll ((inner, rightTy) :: pending) rest ∧ bits = true :: rest := by
  constructor
  · rintro ⟨_, back, encodes, encodesAll, rfl⟩
    cases encodes with
    | right encodes => exact ⟨_, ⟨_, back, encodes, encodesAll, rfl⟩, rfl⟩
  · rintro ⟨_, ⟨front, back, encodes, encodesAll, rfl⟩, rfl⟩
    exact ⟨_, back, .right encodes, encodesAll, rfl⟩

theorem encodesAll_pair_iff (wide : (Ty.prod firstTy secondTy).width ≠ 0) :
    EncodesAll ((.pair first second, .prod firstTy secondTy) :: pending) bits ↔
      EncodesAll ((first, firstTy) :: (second, secondTy) :: pending) bits := by
  constructor
  · rintro ⟨_, rest, encodes, encodesAll, rfl⟩
    cases encodes with
    | pair _ encodesFirst encodesSecond =>
        exact ⟨_, _, encodesFirst, ⟨_, rest, encodesSecond, encodesAll, rfl⟩, by simp⟩
  · rintro ⟨front, _, encodesFirst, ⟨back, rest, encodesSecond, encodesAll, rfl⟩, rfl⟩
    exact ⟨_, rest, .pair wide encodesFirst encodesSecond, encodesAll, by simp⟩

end EncodesAll

/-- The bits encode some values of types, one after another. -/
def EncodeSome : List Ty → List Bool → Prop
  | [], bits => bits = []
  | ty :: pending, bits =>
      ∃ front back, (∃ value, ty.Encodes value front) ∧ EncodeSome pending back ∧
        bits = front ++ back

section EncodeSome

variable {pending : List Ty} {left right first second : Ty}

theorem encodeSome_narrow_iff (narrow : ty.width = 0) :
    EncodeSome (ty :: pending) bits ↔ EncodeSome pending bits := by
  simp [EncodeSome, encodes_iff_of_width_eq_zero narrow]

theorem encodeSome_sum_iff : EncodeSome (.sum left right :: pending) bits ↔
    (∃ rest, EncodeSome (left :: pending) rest ∧ bits = false :: rest) ∨
      ∃ rest, EncodeSome (right :: pending) rest ∧ bits = true :: rest := by
  constructor
  · rintro ⟨_, back, ⟨value, encodes⟩, encode, rfl⟩
    cases encodes with
    | empty narrow => exact absurd narrow (width_sum_ne_zero _ _)
    | left encodes => exact .inl ⟨_, ⟨_, back, ⟨_, encodes⟩, encode, rfl⟩, rfl⟩
    | right encodes => exact .inr ⟨_, ⟨_, back, ⟨_, encodes⟩, encode, rfl⟩, rfl⟩
  · rintro (⟨_, ⟨front, back, ⟨value, encodes⟩, encode, rfl⟩, rfl⟩ |
      ⟨_, ⟨front, back, ⟨value, encodes⟩, encode, rfl⟩, rfl⟩)
    · exact ⟨_, back, ⟨_, .left encodes⟩, encode, rfl⟩
    · exact ⟨_, back, ⟨_, .right encodes⟩, encode, rfl⟩

theorem encodeSome_prod_iff (wide : (Ty.prod first second).width ≠ 0) :
    EncodeSome (.prod first second :: pending) bits ↔
      EncodeSome (first :: second :: pending) bits := by
  constructor
  · rintro ⟨_, rest, ⟨value, encodes⟩, encode, rfl⟩
    cases encodes with
    | empty narrow => exact absurd narrow wide
    | pair _ encodesFirst encodesSecond =>
        exact ⟨_, _, ⟨_, encodesFirst⟩, ⟨_, rest, ⟨_, encodesSecond⟩, encode, rfl⟩, by simp⟩
  · rintro ⟨front, _, ⟨value, encodesFirst⟩, ⟨back, rest, ⟨value', encodesSecond⟩, encode, rfl⟩, rfl⟩
    exact ⟨_, rest, ⟨_, .pair wide encodesFirst encodesSecond⟩, encode, by simp⟩

end EncodeSome

end Ty

namespace Value

/-- The writer appends one of the given sequences of bits, or fails if there is none. -/
def Appends (writer : EStateM Error BitString Unit) (Written : List Bool → Prop) : Prop :=
  ∀ out result, writer out = .ok () result ↔
    ∃ bits, Written bits ∧ result.toList = out.toList ++ bits

namespace Appends

variable {writer writer' : EStateM Error BitString Unit} {Written Written' : List Bool → Prop}

theorem congr (appends : Appends writer Written) (same : ∀ bits, Written bits ↔ Written' bits) :
    Appends writer Written' := by
  intro out result
  rw [appends out result]
  apply exists_congr
  intro bits
  rw [same]

theorem pure : Appends (Pure.pure ()) fun bits => bits = [] := by
  intro out result
  simp only [exists_eq_left, List.append_nil, BitString.toList_inj]
  constructor
  · intro written
    cases written
    rfl
  · rintro rfl
    rfl

theorem throw (error : Error) : Appends (MonadExcept.throw error) fun _ => False := by
  intro out result
  constructor
  · intro impossible
    cases impossible
  · rintro ⟨_, impossible, -⟩
    exact impossible.elim

theorem push (bit : Bool) : Appends (modify (·.push bit)) fun bits => bits = [bit] := by
  intro out result
  simp only [exists_eq_left, ← BitString.toList_push, BitString.toList_inj]
  constructor
  · intro written
    cases written
    rfl
  · rintro rfl
    rfl

/-- One writer after another appends one sequence after another. -/
theorem bind (appends : Appends writer Written) (appends' : Appends writer' Written') :
    Appends (do writer; writer') fun bits =>
      ∃ front back, Written front ∧ Written' back ∧ bits = front ++ back := by
  intro out result
  have split : (do writer; writer') out = .ok () result ↔
      ∃ middle, writer out = .ok () middle ∧ writer' middle = .ok () result := by
    change EStateM.bind writer _ out = _ ↔ _
    unfold EStateM.bind
    cases writer out <;> simp
  rw [split]
  constructor
  · rintro ⟨middle, writes, writes'⟩
    rcases (appends out middle).mp writes with ⟨front, written, middle_eq⟩
    rcases (appends' middle result).mp writes' with ⟨back, written', result_eq⟩
    refine ⟨front ++ back, ⟨front, back, written, written', rfl⟩, ?_⟩
    rw [result_eq, middle_eq, List.append_assoc]
  · rintro ⟨_, ⟨front, back, written, written', rfl⟩, result_eq⟩
    refine ⟨.ofBits (out.toList ++ front), (appends _ _).mpr ⟨front, written, by simp⟩,
      (appends' _ _).mpr ⟨back, written', ?_⟩⟩
    rw [result_eq, BitString.toList_ofBits, List.append_assoc]

end Appends

theorem writeAll_appends (pending : List (Value × Ty)) :
    Appends (writeAll pending) (Ty.EncodesAll pending) := by
  fun_induction writeAll pending with
  | case1 => exact Appends.pure
  | case2 ty pending narrow ih =>
      apply ih.congr
      simp [Ty.EncodesAll, Ty.encodes_iff_of_width_eq_zero narrow]
  | case3 value ty pending narrow notUnit =>
      apply (Appends.throw _).congr
      simp [Ty.EncodesAll, Ty.encodes_iff_of_width_eq_zero narrow, show value ≠ .unit from notUnit]
  | case4 pending wide => exact absurd rfl wide
  | case5 pending inner leftTy rightTy wide ih =>
      apply ((Appends.push false).bind ih).congr
      intro bits
      simp [Ty.encodesAll_left_iff]
  | case6 pending inner leftTy rightTy wide ih =>
      apply ((Appends.push true).bind ih).congr
      intro bits
      simp [Ty.encodesAll_right_iff]
  | case7 pending first second firstTy secondTy wide ih =>
      apply ih.congr
      intro bits
      rw [Ty.encodesAll_pair_iff wide]
  | case8 value ty pending wide notUnit notLeft notRight notPair =>
      apply (Appends.throw _).congr
      rintro bits
      rw [false_iff]
      rintro ⟨front, back, encodes, -⟩
      cases encodes with
      | empty narrow => exact wide narrow
      | left => exact notLeft _ _ _ rfl rfl
      | right => exact notRight _ _ _ rfl rfl
      | pair => exact notPair _ _ _ _ rfl rfl

theorem write_appends (value : Value) (ty : Ty) : Appends (value.write ty) (ty.Encodes value) := by
  apply (writeAll_appends [(value, ty)]).congr
  intro bits
  simp [Ty.EncodesAll]

theorem toBits_eq_ok_iff {value : Value} {ty : Ty} {bits : BitString} :
    value.toBits ty = .ok bits ↔ ty.Encodes value bits.toList := by
  have appends := write_appends value ty .empty bits
  simp only [BitString.toList_empty, List.nil_append, exists_eq_right'] at appends
  rw [← appends, toBits]
  cases value.write ty .empty with
  | ok done out => simp
  | error error out => simp

/-- The part of a bit string from a position on starts with the bit at the position. -/
theorem cons_prefix_drop_iff {bits : BitString} {position : Nat} {bit : Bool} {rest : List Bool} :
    bit :: rest <+: bits.toList.drop position ↔
      bits.get? position = some bit ∧ rest <+: bits.toList.drop (position + 1) := by
  rw [← BitString.getElem?_toList]
  by_cases inside : position < bits.toList.length
  · rw [List.drop_eq_getElem_cons inside, List.cons_prefix_cons, List.getElem?_eq_getElem inside,
      Option.some_inj, eq_comm]
  · rw [List.drop_eq_nil_of_le (by omega), List.getElem?_eq_none (by omega)]
    simp

theorem append_prefix_drop_iff {bits : BitString} {position : Nat} {front back : List Bool} :
    front ++ back <+: bits.toList.drop position ↔
      front <+: bits.toList.drop position ∧ back <+: bits.toList.drop (position + front.length) := by
  rw [← List.drop_drop]
  constructor
  · rintro ⟨tail, split⟩
    rw [← split, List.append_assoc, List.drop_left]
    exact ⟨List.prefix_append _ _, List.prefix_append _ _⟩
  · rintro ⟨⟨tail, split⟩, starts⟩
    rw [← split, List.drop_left] at starts
    rw [← split]
    exact (List.prefix_append_right_inj front).mpr starts

section Steps

variable {bits : BitString} {steps : List Step} {values : List Value} {consumed : Nat}
  {ty leftTy rightTy firstTy secondTy : Ty}

theorem readAll_narrow (narrow : ty.width = 0) :
    readAll bits (.decode ty :: steps) values consumed =
      readAll bits steps (.unit :: values) consumed := by
  cases ty <;> rw [readAll, if_pos narrow]

theorem readAll_left (found : bits.get? consumed = some false) :
    readAll bits (.decode (.sum leftTy rightTy) :: steps) values consumed =
      readAll bits (.decode leftTy :: .wrapLeft :: steps) values (consumed + 1) := by
  rw [readAll, if_neg (Ty.width_sum_ne_zero _ _)]
  simp only [found]

theorem readAll_right (found : bits.get? consumed = some true) :
    readAll bits (.decode (.sum leftTy rightTy) :: steps) values consumed =
      readAll bits (.decode rightTy :: .wrapRight :: steps) values (consumed + 1) := by
  rw [readAll, if_neg (Ty.width_sum_ne_zero _ _)]
  simp only [found]

theorem readAll_ended (ended : bits.get? consumed = none) :
    readAll bits (.decode (.sum leftTy rightTy) :: steps) values consumed =
      .error (.endOfBits consumed) := by
  rw [readAll, if_neg (Ty.width_sum_ne_zero _ _)]
  simp only [ended]

theorem readAll_prod (wide : (Ty.prod firstTy secondTy).width ≠ 0) :
    readAll bits (.decode (.prod firstTy secondTy) :: steps) values consumed =
      readAll bits (.decode firstTy :: .decode secondTy :: .pair :: steps) values consumed := by
  rw [readAll, if_neg wide]

theorem readAll_wrapLeft (inner : Value) :
    readAll bits (.wrapLeft :: steps) (inner :: values) consumed =
      readAll bits steps (.left inner :: values) consumed := by
  rw [readAll]
  rfl

theorem readAll_wrapRight (inner : Value) :
    readAll bits (.wrapRight :: steps) (inner :: values) consumed =
      readAll bits steps (.right inner :: values) consumed := by
  rw [readAll]
  rfl

theorem readAll_pair (first second : Value) :
    readAll bits (.pair :: steps) (second :: first :: values) consumed =
      readAll bits steps (.pair first second :: values) consumed := by
  rw [readAll]
  rfl

end Steps

/-- Where an encoding starts, the reader reads it, whatever it has still to do and has read before. -/
theorem readAll_of_encodes {bits : BitString} {ty : Ty} {steps : List Step} {values : List Value}
    {consumed : Nat} {value : Value} {written : List Bool} (encodes : ty.Encodes value written)
    (starts : written <+: bits.toList.drop consumed) :
    readAll bits (.decode ty :: steps) values consumed =
      readAll bits steps (value :: values) (consumed + written.length) := by
  induction encodes generalizing steps values consumed with
  | empty narrow => rw [readAll_narrow narrow, List.length_nil, Nat.add_zero]
  | left _ ih =>
      rcases cons_prefix_drop_iff.mp starts with ⟨found, starts⟩
      rw [readAll_left found, ih starts, readAll_wrapLeft, List.length_cons, Nat.add_right_comm,
        Nat.add_assoc]
  | right _ ih =>
      rcases cons_prefix_drop_iff.mp starts with ⟨found, starts⟩
      rw [readAll_right found, ih starts, readAll_wrapRight, List.length_cons, Nat.add_right_comm,
        Nat.add_assoc]
  | pair wide _ _ ihFirst ihSecond =>
      rcases append_prefix_drop_iff.mp starts with ⟨startsFirst, startsSecond⟩
      rw [readAll_prod wide, ihFirst startsFirst, ihSecond startsSecond, readAll_pair,
        List.length_append, Nat.add_assoc]

end Value

namespace Decoder

theorem compactAll_recognizes (pending : List Ty) (out : BitString) :
    (compactAll pending out).Recognizes fun result written =>
      Ty.EncodeSome pending written ∧ result.toList = out.toList ++ written := by
  fun_induction compactAll pending out with
  | case1 out =>
      apply (Recognizes.pure out).congr
      intro result written
      constructor
      · rintro ⟨rfl, rfl⟩
        exact ⟨rfl, by simp⟩
      · rintro ⟨rfl, same⟩
        rw [List.append_nil, BitString.toList_inj] at same
        exact ⟨same, rfl⟩
  | case2 ty pending out narrow ih =>
      apply ih.congr
      intro result written
      rw [Ty.encodeSome_narrow_iff narrow]
  | case3 pending out wide => exact absurd rfl wide
  | case4 pending out left right wide ihRight ihLeft =>
      apply ((bit_recognizes .witnessValue).cond ihRight ihLeft).congr
      intro result written
      simp only [BitString.toList_push, List.append_assoc, List.singleton_append]
      rw [Ty.encodeSome_sum_iff]
      constructor
      · rintro (⟨back, rfl, encode, copied⟩ | ⟨back, rfl, encode, copied⟩)
        · exact ⟨.inr ⟨back, encode, rfl⟩, copied⟩
        · exact ⟨.inl ⟨back, encode, rfl⟩, copied⟩
      · rintro ⟨⟨back, encode, rfl⟩ | ⟨back, encode, rfl⟩, copied⟩
        · exact .inr ⟨back, rfl, encode, copied⟩
        · exact .inl ⟨back, rfl, encode, copied⟩
  | case5 pending out left right wide ih =>
      apply ih.congr
      intro result written
      rw [Ty.encodeSome_prod_iff wide]

/-- The decoder copies an encoding of some value. -/
theorem compact_recognizes (ty : Ty) : (compact ty).Recognizes fun result written =>
    (∃ value, ty.Encodes value written) ∧ result.toList = written := by
  apply (compactAll_recognizes [ty] .empty).congr
  intro result written
  simp [Ty.EncodeSome]

end Decoder

end Simplicity
