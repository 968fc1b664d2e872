import Simplicity.Proofs.Value.Compact

/-!
# Writing and reading values

The writer and the reader of values are inverse to each other, and what either of them refuses can be
said in terms of encodings alone:

* the writer refuses the values that do not inhabit the type, and keeps what was written before;
* the reader complains about the end of the bits if they are a proper prefix of some encoding, and about
  bits left over if they properly extend one. It never complains about a mismatch.

The second point rests on two facts. Every type has a value, so the reader can only run out of bits
inside of what could have become an encoding. And no encoding is a proper prefix of another one, so that
the three outcomes of reading exclude each other.
-/

namespace Simplicity

namespace Value

/-- A value is one of a type: the unit value if the type has no bits, and otherwise an injection of a
value into a sum, or a pair of values in a product. -/
def Inhabits : Value → Ty → Prop
  | value, ty =>
    if ty.width = 0 then
      value = .unit
    else
      match value, ty with
      | .left inner, .sum leftTy _ => inner.Inhabits leftTy
      | .right inner, .sum _ rightTy => inner.Inhabits rightTy
      | .pair first second, .prod firstTy secondTy =>
          first.Inhabits firstTy ∧ second.Inhabits secondTy
      | _, _ => False

end Value

namespace Ty

variable {ty : Ty} {value value' : Value} {bits bits' : List Bool}

/-- The values of a type are those that have an encoding. -/
theorem exists_encodes_iff_inhabits : (∃ bits, ty.Encodes value bits) ↔ value.Inhabits ty := by
  fun_induction Value.Inhabits value ty with
  | case1 value ty narrow => simp [encodes_iff_of_width_eq_zero narrow]
  | case2 inner leftTy rightTy wide ih =>
      rw [← ih]
      constructor
      · rintro ⟨_, encodes⟩
        cases encodes with
        | left encodes => exact ⟨_, encodes⟩
      · rintro ⟨bits, encodes⟩
        exact ⟨_, .left encodes⟩
  | case3 inner leftTy rightTy wide ih =>
      rw [← ih]
      constructor
      · rintro ⟨_, encodes⟩
        cases encodes with
        | right encodes => exact ⟨_, encodes⟩
      · rintro ⟨bits, encodes⟩
        exact ⟨_, .right encodes⟩
  | case4 first second firstTy secondTy wide ihFirst ihSecond =>
      rw [← ihFirst, ← ihSecond]
      constructor
      · rintro ⟨_, encodes⟩
        cases encodes with
        | pair _ encodesFirst encodesSecond => exact ⟨⟨_, encodesFirst⟩, ⟨_, encodesSecond⟩⟩
      · rintro ⟨⟨front, encodesFirst⟩, ⟨back, encodesSecond⟩⟩
        exact ⟨_, .pair wide encodesFirst encodesSecond⟩
  | case5 value ty wide notLeft notRight notPair =>
      rw [iff_false]
      rintro ⟨bits, encodes⟩
      cases encodes with
      | empty narrow => exact wide narrow
      | left => exact notLeft _ _ _ rfl rfl
      | right => exact notRight _ _ _ rfl rfl
      | pair => exact notPair _ _ _ _ rfl rfl

/-- Every type has a value. -/
theorem exists_encodes (ty : Ty) : ∃ value bits, ty.Encodes value bits := by
  induction ty with
  | unit => exact ⟨.unit, [], .empty rfl⟩
  | sum leftTy rightTy ihLeft _ =>
      rcases ihLeft with ⟨inner, bits, encodes⟩
      exact ⟨.left inner, _, .left encodes⟩
  | prod firstTy secondTy ihFirst ihSecond =>
      rcases ihFirst with ⟨first, front, encodesFirst⟩
      rcases ihSecond with ⟨second, back, encodesSecond⟩
      by_cases narrow : (Ty.prod firstTy secondTy).width = 0
      · exact ⟨.unit, [], .empty narrow⟩
      · exact ⟨.pair first second, _, .pair narrow encodesFirst encodesSecond⟩

/-- No encoding starts with another one, and a value has a single encoding. -/
theorem Encodes.eq_of_extends (encodes : ty.Encodes value bits) (encodes' : ty.Encodes value' bits')
    (starts : bits <+: bits') : value = value' ∧ bits = bits' := by
  have reads : Value.readAll (.ofBits bits') [.decode ty] [] 0 = .ok ([value], 0 + bits.length) := by
    rw [Value.readAll_of_encodes encodes (by simpa using starts), Value.readAll]
  have reads' : Value.readAll (.ofBits bits') [.decode ty] [] 0 =
      .ok ([value'], 0 + bits'.length) := by
    rw [Value.readAll_of_encodes encodes' (by simp), Value.readAll]
  simp only [reads, Except.ok.injEq, Prod.mk.injEq, List.cons.injEq, and_true, Nat.zero_add] at reads'
  exact ⟨reads'.1, starts.eq_of_length reads'.2⟩

end Ty

namespace Value

/-- What was written before a value turned out to be none of its type stays in front. -/
theorem writeAll_eq_error {pending : List (Value × Ty)} {out result : BitString} {error : Error}
    (fails : writeAll pending out = .error error result) :
    error = .typeMismatch ∧ out.toList <+: result.toList := by
  fun_induction writeAll pending generalizing out with
  | case1 => cases fails
  | case2 ty pending narrow ih => exact ih fails
  | case3 | case8 =>
      cases fails
      exact ⟨rfl, List.prefix_refl _⟩
  | case4 pending wide ih => exact ih fails
  | case5 pending inner leftTy rightTy wide ih | case6 pending inner leftTy rightTy wide ih =>
      rcases ih fails with ⟨rfl, starts⟩
      refine ⟨rfl, List.IsPrefix.trans ?_ starts⟩
      simp
  | case7 pending first second firstTy secondTy wide ih => exact ih fails

/-- Writing a value appends its encoding, or fails because it has none. -/
theorem write_appends_or_fails (value : Value) (ty : Ty) (out : BitString) :
    (∃ bits result, value.toBits ty = .ok bits ∧ value.write ty out = .ok () result ∧
        result.toList = out.toList ++ bits.toList) ∨
      value.toBits ty = .error .typeMismatch ∧
        ∃ result, value.write ty out = .error .typeMismatch result ∧
          out.toList <+: result.toList := by
  cases encoded : value.toBits ty with
  | ok bits =>
      left
      have encodes := toBits_eq_ok_iff.mp encoded
      refine ⟨bits, .ofBits (out.toList ++ bits.toList), rfl, ?_, by simp⟩
      exact (write_appends value ty out _).mpr ⟨_, encodes, by simp⟩
  | error error =>
      right
      have noEncoding : ¬ ∃ bits, ty.Encodes value bits := by
        rintro ⟨bits, encodes⟩
        have succeeds : value.toBits ty = .ok (.ofBits bits) :=
          toBits_eq_ok_iff.mpr (by simpa using encodes)
        rw [encoded] at succeeds
        cases succeeds
      have fails : ∀ out, ∃ result, value.write ty out = .error .typeMismatch result ∧
          out.toList <+: result.toList := by
        intro out
        cases written : value.write ty out with
        | ok done result =>
            rcases (write_appends value ty out result).mp written with ⟨bits, encodes, -⟩
            exact absurd ⟨bits, encodes⟩ noEncoding
        | error cause result =>
            rcases writeAll_eq_error written with ⟨rfl, starts⟩
            exact ⟨result, rfl, starts⟩
      refine ⟨?_, fails out⟩
      rcases fails .empty with ⟨result, written, -⟩
      simp only [toBits, written] at encoded
      rw [← encoded]

theorem lt_length_of_get?_eq_some {bits : BitString} {position : Nat} {bit : Bool}
    (found : bits.get? position = some bit) : position < bits.length := by
  rw [← BitString.getElem?_toList] at found
  simpa using (List.getElem?_eq_some_iff.mp found).1

theorem drop_eq_cons_of_get?_eq_some {bits : BitString} {position : Nat} {bit : Bool}
    (found : bits.get? position = some bit) :
    bits.toList.drop position = bit :: bits.toList.drop (position + 1) := by
  rw [← BitString.getElem?_toList] at found
  rcases List.getElem?_eq_some_iff.mp found with ⟨inside, rfl⟩
  exact List.drop_eq_getElem_cons inside

/-- The bits from a position on start with an encoding of some value. -/
def Starts (bits : BitString) (consumed : Nat) (ty : Ty) : Prop :=
  ∃ value written, ty.Encodes value written ∧ written <+: bits.toList.drop consumed

/-- The bits from a position on are not enough for an encoding that they begin. -/
def RunsOut (bits : BitString) (consumed : Nat) (ty : Ty) : Prop :=
  ∃ value written, ty.Encodes value written ∧ bits.toList.drop consumed <+: written ∧
    bits.length < consumed + written.length

namespace RunsOut

variable {bits : BitString} {consumed : Nat} {leftTy rightTy firstTy secondTy : Ty}

theorem ended (inside : consumed ≤ bits.length) (atEnd : bits.length ≤ consumed) :
    RunsOut bits consumed (.sum leftTy rightTy) := by
  rcases leftTy.exists_encodes with ⟨inner, written, encodes⟩
  refine ⟨_, _, .left encodes, ?_, ?_⟩
  · rw [List.drop_eq_nil_of_le (by simpa using atEnd)]
    exact List.nil_prefix
  · rw [List.length_cons]
    omega

/-- Of a sum of types, the bit that tells which of the two the value is from has been read. -/
theorem tagged {ty branchTy : Ty} {inject : Value → Value} {bit : Bool}
    (found : bits.get? consumed = some bit)
    (encodes : ∀ {inner : Value} {written : List Bool}, branchTy.Encodes inner written →
      ty.Encodes (inject inner) (bit :: written))
    (runsOut : RunsOut bits (consumed + 1) branchTy) : RunsOut bits consumed ty := by
  rcases runsOut with ⟨inner, written, encodesInner, starts, short⟩
  refine ⟨_, _, encodes encodesInner, ?_, ?_⟩
  · rw [drop_eq_cons_of_get?_eq_some found]
    exact List.cons_prefix_cons.mpr ⟨rfl, starts⟩
  · rw [List.length_cons]
    omega

theorem first (wide : (Ty.prod firstTy secondTy).width ≠ 0) (runsOut : RunsOut bits consumed firstTy) :
    RunsOut bits consumed (.prod firstTy secondTy) := by
  rcases runsOut with ⟨first, front, encodesFirst, starts, short⟩
  rcases secondTy.exists_encodes with ⟨second, back, encodesSecond⟩
  refine ⟨_, _, .pair wide encodesFirst encodesSecond, ?_, ?_⟩
  · exact starts.trans (List.prefix_append _ _)
  · rw [List.length_append]
    omega

theorem second (wide : (Ty.prod firstTy secondTy).width ≠ 0) {first : Value} {front : List Bool}
    (encodesFirst : firstTy.Encodes first front) (startsFirst : front <+: bits.toList.drop consumed)
    (runsOut : RunsOut bits (consumed + front.length) secondTy) :
    RunsOut bits consumed (.prod firstTy secondTy) := by
  rcases runsOut with ⟨second, back, encodesSecond, starts, short⟩
  refine ⟨_, _, .pair wide encodesFirst encodesSecond, ?_, ?_⟩
  · rcases startsFirst with ⟨rest, split⟩
    rw [← List.drop_drop, ← split, List.drop_left] at starts
    rw [← split]
    exact (List.prefix_append_right_inj front).mpr starts
  · rw [List.length_append]
    omega

end RunsOut

/-- If no encoding starts at a position, the reader comes to the end of the bits inside of what could
have become one, before it returns to what it had to do after it. -/
theorem starts_or_readAll_ends (bits : BitString) (ty : Ty) {consumed : Nat}
    (inside : consumed ≤ bits.length) : Starts bits consumed ty ∨
      RunsOut bits consumed ty ∧ ∀ steps values,
        readAll bits (.decode ty :: steps) values consumed = .error (.endOfBits bits.length) := by
  induction ty generalizing consumed with
  | unit => exact .inl ⟨.unit, [], .empty rfl, List.nil_prefix⟩
  | sum leftTy rightTy ihLeft ihRight =>
      rcases found : bits.get? consumed with _ | _ | _
      · have atEnd : bits.length ≤ consumed := by
          rwa [← BitString.getElem?_toList, List.getElem?_eq_none_iff, BitString.length_toList]
            at found
        refine .inr ⟨.ended inside atEnd, ?_⟩
        intro steps values
        rw [readAll_ended found, Nat.le_antisymm inside atEnd]
      · rcases ihLeft (lt_length_of_get?_eq_some found) with
          ⟨inner, written, encodes, starts⟩ | ⟨runsOut, ends⟩
        · exact .inl ⟨_, _, .left encodes, cons_prefix_drop_iff.mpr ⟨found, starts⟩⟩
        · refine .inr ⟨runsOut.tagged found .left, ?_⟩
          intro steps values
          rw [readAll_left found, ends]
      · rcases ihRight (lt_length_of_get?_eq_some found) with
          ⟨inner, written, encodes, starts⟩ | ⟨runsOut, ends⟩
        · exact .inl ⟨_, _, .right encodes, cons_prefix_drop_iff.mpr ⟨found, starts⟩⟩
        · refine .inr ⟨runsOut.tagged found .right, ?_⟩
          intro steps values
          rw [readAll_right found, ends]
  | prod firstTy secondTy ihFirst ihSecond =>
      by_cases narrow : (Ty.prod firstTy secondTy).width = 0
      · exact .inl ⟨.unit, [], .empty narrow, List.nil_prefix⟩
      rcases ihFirst inside with ⟨first, front, encodesFirst, startsFirst⟩ | ⟨runsOut, ends⟩
      · have inside' : consumed + front.length ≤ bits.length := by
          have fits := startsFirst.length_le
          rw [List.length_drop, BitString.length_toList] at fits
          omega
        rcases ihSecond inside' with ⟨second, back, encodesSecond, startsSecond⟩ | ⟨runsOut, ends⟩
        · exact .inl ⟨_, _, .pair narrow encodesFirst encodesSecond,
            append_prefix_drop_iff.mpr ⟨startsFirst, startsSecond⟩⟩
        · refine .inr ⟨.second narrow encodesFirst startsFirst runsOut, ?_⟩
          intro steps values
          rw [readAll_prod narrow, readAll_of_encodes encodesFirst startsFirst, ends]
      · refine .inr ⟨.first narrow runsOut, ?_⟩
        intro steps values
        rw [readAll_prod narrow, ends]

/-- Where all the bits start with an encoding, one value is read, and what is left of them counts. -/
theorem ofBits_of_encodes {bits : BitString} {ty : Ty} {value : Value} {written : List Bool}
    (encodes : ty.Encodes value written) (starts : written <+: bits.toList) :
    ofBits bits ty = if written.length < bits.length then
      .error (.trailingBits (bits.length - written.length)) else .ok value := by
  rw [ofBits, readAll_of_encodes encodes (by simpa using starts), readAll, Nat.zero_add]
  change (if 0 < bits.length - written.length then _ else _) = _
  simp only [Nat.sub_pos_iff_lt]
  split <;> rfl

/-- The bits are the encoding of a value, or a proper prefix of one, or more than one. -/
theorem ofBits_cases (bits : BitString) (ty : Ty) :
    (∃ value, ofBits bits ty = .ok value ∧ ty.Encodes value bits.toList) ∨
      (ofBits bits ty = .error (.endOfBits bits.length) ∧ ∃ value written,
        ty.Encodes value written ∧ bits.toList <+: written ∧ bits.length < written.length) ∨
      ∃ value written, ofBits bits ty = .error (.trailingBits (bits.length - written.length)) ∧
        ty.Encodes value written ∧ written <+: bits.toList ∧ written.length < bits.length := by
  rcases starts_or_readAll_ends bits ty (Nat.zero_le _) with
    ⟨value, written, encodes, starts⟩ | ⟨⟨value, written, encodes, starts, short⟩, ends⟩
  · rw [List.drop_zero] at starts
    have reads := ofBits_of_encodes encodes starts
    by_cases more : written.length < bits.length
    · rw [if_pos more] at reads
      exact .inr (.inr ⟨value, written, reads, encodes, starts, more⟩)
    · rw [if_neg more] at reads
      have whole : written = bits.toList := starts.eq_of_length_le (by simpa using more)
      exact .inl ⟨value, reads, whole ▸ encodes⟩
  · rw [List.drop_zero] at starts
    refine .inr (.inl ⟨?_, value, written, encodes, starts, by omega⟩)
    rw [ofBits, ends]
    rfl

theorem ofBits_eq_ok_iff {bits : BitString} {ty : Ty} {value : Value} :
    ofBits bits ty = .ok value ↔ ty.Encodes value bits.toList := by
  constructor
  · intro succeeds
    rcases ofBits_cases bits ty with ⟨found, reads, encodes⟩ | ⟨reads, -⟩ | ⟨_, _, reads, -⟩
    all_goals
      rw [reads] at succeeds
      cases succeeds
    exact encodes
  · intro encodes
    rw [ofBits_of_encodes encodes (List.prefix_refl _), if_neg (by simp)]

/-- The reader runs out of bits exactly if they are a proper prefix of an encoding. -/
theorem ofBits_eq_endOfBits_iff {bits : BitString} {ty : Ty} {consumed : Nat} :
    ofBits bits ty = .error (.endOfBits consumed) ↔ consumed = bits.length ∧
      ∃ value written, ty.Encodes value written ∧ bits.toList <+: written ∧
        bits.length < written.length := by
  rcases ofBits_cases bits ty with
    ⟨value, reads, encodes⟩ | ⟨reads, longer⟩ | ⟨value, written, reads, encodes, starts, more⟩
  · simp only [reads, reduceCtorEq, false_iff]
    rintro ⟨-, value', written, encodes', starts, short⟩
    rw [← (encodes.eq_of_extends encodes' starts).2, BitString.length_toList] at short
    exact Nat.lt_irrefl _ short
  · simp only [reads, Except.error.injEq, Error.endOfBits.injEq]
    constructor
    · intro same
      exact ⟨same.symm, longer⟩
    · intro extended
      exact extended.1.symm
  · simp only [reads, Except.error.injEq, reduceCtorEq, false_iff]
    rintro ⟨-, value', written', encodes', starts', short⟩
    rw [(encodes.eq_of_extends encodes' (starts.trans starts')).2] at more
    omega

/-- The reader has bits left over exactly if they properly extend an encoding. -/
theorem ofBits_eq_trailingBits_iff {bits : BitString} {ty : Ty} {unused : Nat} :
    ofBits bits ty = .error (.trailingBits unused) ↔ 0 < unused ∧
      ∃ value written, ty.Encodes value written ∧ written <+: bits.toList ∧
        bits.length = written.length + unused := by
  rcases ofBits_cases bits ty with
    ⟨value, reads, encodes⟩ | ⟨reads, value, written, encodes, starts, short⟩ |
      ⟨value, written, reads, encodes, starts, more⟩
  · simp only [reads, reduceCtorEq, false_iff]
    rintro ⟨positive, value', written, encodes', starts, more⟩
    rw [(encodes'.eq_of_extends encodes starts).2, BitString.length_toList] at more
    omega
  · simp only [reads, Except.error.injEq, reduceCtorEq, false_iff]
    rintro ⟨positive, value', written', encodes', starts', more⟩
    rw [← (encodes'.eq_of_extends encodes (starts'.trans starts)).2] at short
    omega
  · simp only [reads, Except.error.injEq, Error.trailingBits.injEq]
    constructor
    · rintro rfl
      exact ⟨by omega, value, written, encodes, starts, by omega⟩
    · rintro ⟨positive, value', written', encodes', starts', more'⟩
      -- Both encodings start the bits, so one of them starts the other.
      rcases List.prefix_or_prefix_of_prefix starts starts' with shorter | shorter
      · rw [(encodes.eq_of_extends encodes' shorter).2]
        omega
      · rw [← (encodes'.eq_of_extends encodes shorter).2]
        omega

theorem exists_toBits_iff_encodes {value : Value} {ty : Ty} {P : List Bool → Prop} :
    (∃ bits, value.toBits ty = .ok bits ∧ P bits.toList) ↔
      ∃ bits, ty.Encodes value bits ∧ P bits := by
  simp only [toBits_eq_ok_iff]
  constructor
  · rintro ⟨bits, encodes, holds⟩
    exact ⟨_, encodes, holds⟩
  · rintro ⟨bits, encodes, holds⟩
    exact ⟨.ofBits bits, by simpa using encodes, by simpa using holds⟩

/-- Writing and reading compact encodings at a type. The values that can be written are those that
inhabit the type. The writer appends their bits to what is there already, and otherwise fails with what
was there still in front. The reader gives back exactly what was written, no encoding starts with that of
another value, and bits that are no encoding are refused as too few or too many, never as a mismatch. -/
theorem ofBits_inverts_toBits (ty : Ty) :
    (∀ value : Value, (∃ bits, value.toBits ty = .ok bits) ↔ value.Inhabits ty) ∧
    (∀ (value : Value) (out : BitString),
      (∃ bits result, value.toBits ty = .ok bits ∧ value.write ty out = .ok () result ∧
          result.toList = out.toList ++ bits.toList) ∨
        value.toBits ty = .error .typeMismatch ∧
          ∃ result, value.write ty out = .error .typeMismatch result ∧
            out.toList <+: result.toList) ∧
    (∀ (value : Value) (bits : BitString), ofBits bits ty = .ok value ↔ value.toBits ty = .ok bits) ∧
    (∀ (value value' : Value) (bits bits' : BitString),
      value.toBits ty = .ok bits → value'.toBits ty = .ok bits' → bits.toList <+: bits'.toList →
        value = value' ∧ bits = bits') ∧
    (∀ bits : BitString, ofBits bits ty ≠ .error .typeMismatch) ∧
    (∀ (bits : BitString) (consumed : Nat), ofBits bits ty = .error (.endOfBits consumed) ↔
      consumed = bits.length ∧ ∃ (value : Value) (full : BitString), value.toBits ty = .ok full ∧
        bits.toList <+: full.toList ∧ bits.length < full.length) ∧
    ∀ (bits : BitString) (unused : Nat), ofBits bits ty = .error (.trailingBits unused) ↔
      0 < unused ∧ ∃ (value : Value) (full : BitString), value.toBits ty = .ok full ∧
        full.toList <+: bits.toList ∧ bits.length = full.length + unused := by
  refine ⟨?_, fun value out => write_appends_or_fails value ty out, ?_, ?_, ?_, ?_, ?_⟩
  · intro value
    rw [← Ty.exists_encodes_iff_inhabits]
    simpa using exists_toBits_iff_encodes (P := fun _ => True)
  · intro value bits
    rw [ofBits_eq_ok_iff, toBits_eq_ok_iff]
  · intro value value' bits bits' encoded encoded' starts
    have same := (toBits_eq_ok_iff.mp encoded).eq_of_extends (toBits_eq_ok_iff.mp encoded') starts
    exact ⟨same.1, BitString.eq_of_toList_eq same.2⟩
  · intro bits fails
    rcases ofBits_cases bits ty with ⟨value, reads, -⟩ | ⟨reads, -⟩ | ⟨value, written, reads, -⟩
    all_goals
      rw [reads] at fails
      cases fails
  · intro bits consumed
    simp only [ofBits_eq_endOfBits_iff, ← exists_toBits_iff_encodes, BitString.length_toList]
  · intro bits unused
    simp only [ofBits_eq_trailingBits_iff, ← exists_toBits_iff_encodes, BitString.length_toList]

end Value

end Simplicity
