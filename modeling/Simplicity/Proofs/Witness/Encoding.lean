import Simplicity.Proofs.Expression.Arrows
import Simplicity.Proofs.Value.Inversion

/-!
# Witnesses and values

A witness stream is the encodings of one value for each witness node, one after another. Nothing
separates them, and yet the stream determines the values: each encoding ends where its type says.
So a witness can be had from bytes or from values, and both ways give the same.

`Witness.Encodes` relates the nodes, the values and the bits that encode them. Making a witness from
values, taking it apart and reading it from a stream each succeed on what is related and on nothing
else, and values that are refused are refused for the first of them that has no encoding.
-/

namespace Simplicity

theorem mapM_eq_ok_iff {ε α β : Type} {f : α → Except ε β} {inputs : List α} {results : List β} :
    inputs.mapM f = .ok results ↔
      List.Forall₂ (fun input result => f input = .ok result) inputs results := by
  induction inputs generalizing results with
  | nil =>
      rw [List.mapM_nil, List.forall₂_nil_left_iff]
      constructor
      · rintro ⟨⟩
        rfl
      · rintro rfl
        rfl
  | cons input rest ih =>
      rw [List.mapM_cons, List.forall₂_cons_left_iff]
      constructor
      · intro succeeds
        rcases exists_ok_of_bind succeeds with ⟨result, first, succeeds⟩
        rcases exists_ok_of_bind succeeds with ⟨others, second, ⟨⟩⟩
        exact ⟨result, others, first, ih.mp second, rfl⟩
      · rintro ⟨result, others, first, second, rfl⟩
        rw [first, ih.mpr second]
        rfl

/-- A list that is gone through fails where one of its members fails after all before succeeded. -/
theorem mapM_eq_error_iff {ε α β : Type} {f : α → Except ε β} {inputs : List α} {error : ε} :
    inputs.mapM f = .error error ↔
      ∃ before input after, inputs = before ++ input :: after ∧
        (∀ earlier ∈ before, ∃ result, f earlier = .ok result) ∧ f input = .error error := by
  induction inputs with
  | nil => simp [pure, Except.pure]
  | cons input rest ih =>
      rw [List.mapM_cons]
      cases first : f input with
      | error cause =>
          constructor
          · rintro ⟨⟩
            exact ⟨[], input, rest, rfl, by simp, first⟩
          · rintro ⟨before, culprit, after, split, succeeds, fails⟩
            cases before with
            | nil =>
                cases split
                rw [first] at fails
                cases fails
                rfl
            | cons earlier before =>
                cases split
                rcases succeeds _ List.mem_cons_self with ⟨result, impossible⟩
                rw [first] at impossible
                cases impossible
      | ok result =>
          have passes : (Except.ok result >>= fun result => rest.mapM f >>= fun results =>
              (pure (result :: results) : Except ε (List β))) = .error error ↔
                rest.mapM f = .error error := by
            cases rest.mapM f <;> simp [bind, Except.bind, pure, Except.pure]
          rw [passes, ih]
          constructor
          · rintro ⟨before, culprit, after, rfl, succeeds, fails⟩
            exact ⟨input :: before, culprit, after, rfl,
              List.forall_mem_cons.mpr ⟨⟨result, first⟩, succeeds⟩, fails⟩
          · rintro ⟨before, culprit, after, split, succeeds, fails⟩
            cases before with
            | nil =>
                cases split
                rw [first] at fails
                cases fails
            | cons earlier before =>
                cases split
                exact ⟨before, culprit, after, rfl, (List.forall_mem_cons.mp succeeds).2, fails⟩

namespace Decoder

theorem witnessValue_recognizes (ty : Ty) :
    (witnessValue ty).Recognizes fun bits written =>
      written = bits.toList ∧ ∃ value, ty.Encodes value bits.toList := by
  have copies : (compact ty).Recognizes fun bits written =>
      written = bits.toList ∧ ∃ value, ty.Encodes value bits.toList := by
    apply (compact_recognizes ty).congr
    intro bits written
    constructor
    · rintro ⟨encodes, rfl⟩
      exact ⟨rfl, encodes⟩
    · rintro ⟨rfl, encodes⟩
      exact ⟨encodes, rfl⟩
  intro cursor bits next
  rw [← copies, witnessValue]
  cases compact ty cursor <;> simp

end Decoder

namespace Witness

/-- The bit strings encode the values, each at the target type of its node. -/
inductive Encodes (expression : Expression) : List Nat → List Value → List BitString → Prop where
  | nil : Encodes expression [] [] []
  | cons {node : Nat} {nodes : List Nat} {value : Value} {values : List Value} {bits : BitString}
      {encodings : List BitString} {ty : Ty} (target : targetOf expression node = .ok ty)
      (encodes : ty.Encodes value bits.toList) (rest : Encodes expression nodes values encodings) :
      Encodes expression (node :: nodes) (value :: values) (bits :: encodings)

variable {expression : Expression} {nodes : List Nat} {values values' : List Value}
  {encodings : List BitString} {witness : Witness}

namespace Encodes

theorem length_values (encodes : Encodes expression nodes values encodings) :
    nodes.length = values.length := by
  induction encodes with
  | nil => rfl
  | cons _ _ _ ih => rw [List.length_cons, List.length_cons, ih]

theorem length_encodings (encodes : Encodes expression nodes values encodings) :
    nodes.length = encodings.length := by
  induction encodes with
  | nil => rfl
  | cons _ _ _ ih => rw [List.length_cons, List.length_cons, ih]

/-- The encodings determine the values. -/
theorem values_eq (encodes : Encodes expression nodes values encodings)
    (encodes' : Encodes expression nodes values' encodings) : values = values' := by
  induction encodes generalizing values' with
  | nil =>
      cases encodes'
      rfl
  | cons target encodes _ ih =>
      cases encodes' with
      | cons target' encodes' rest' =>
          rw [target] at target'
          cases target'
          rw [← Value.ofBits_eq_ok_iff] at encodes encodes'
          rw [encodes] at encodes'
          cases encodes'
          rw [ih rest']

end Encodes

theorem encodeValue_eq_ok_iff {node : Nat} {value : Value} {bits : BitString} :
    encodeValue expression node value = .ok bits ↔
      ∃ ty, targetOf expression node = .ok ty ∧ ty.Encodes value bits.toList := by
  rw [encodeValue]
  cases targetOf expression node with
  | error error => simp [bind, Except.bind]
  | ok ty =>
      simp only [bind, Except.bind, Except.ok.injEq, exists_eq_left', ← Value.toBits_eq_ok_iff]
      cases value.toBits ty <;> simp [Except.mapError]

theorem decodeValue_eq_ok_iff {node : Nat} {value : Value} {bits : BitString} :
    decodeValue expression node bits = .ok value ↔
      ∃ ty, targetOf expression node = .ok ty ∧ ty.Encodes value bits.toList := by
  rw [decodeValue]
  cases targetOf expression node with
  | error error => simp [bind, Except.bind]
  | ok ty =>
      simp only [bind, Except.bind, Except.ok.injEq, exists_eq_left', ← Value.ofBits_eq_ok_iff]
      cases Value.ofBits bits ty <;> simp [Except.mapError]

theorem mapM_encodeValue_eq_ok_iff (counted : nodes.length = values.length) :
    ((nodes.zip values).mapM fun (node, value) => encodeValue expression node value) =
        .ok encodings ↔ Encodes expression nodes values encodings := by
  rw [mapM_eq_ok_iff]
  constructor
  · intro related
    induction nodes generalizing values encodings with
    | nil =>
        rw [List.length_nil, eq_comm, List.length_eq_zero_iff] at counted
        subst counted
        cases related
        exact .nil
    | cons node nodes ih =>
        rcases List.exists_cons_of_length_eq_add_one counted.symm with ⟨value, values, rfl⟩
        cases related with
        | cons first others =>
            rcases encodeValue_eq_ok_iff.mp first with ⟨ty, target, encodes⟩
            exact .cons target encodes (ih (Nat.succ.inj counted) others)
  · intro encodes
    induction encodes with
    | nil => exact .nil
    | cons target encodes _ ih =>
        exact .cons (encodeValue_eq_ok_iff.mpr ⟨_, target, encodes⟩) (ih (Nat.succ.inj counted))

theorem mapM_decodeValue_eq_ok_iff (counted : nodes.length = encodings.length) :
    ((nodes.zip encodings).mapM fun (node, bits) => decodeValue expression node bits) =
        .ok values ↔ Encodes expression nodes values encodings := by
  rw [mapM_eq_ok_iff]
  constructor
  · intro related
    induction nodes generalizing values encodings with
    | nil =>
        rw [List.length_nil, eq_comm, List.length_eq_zero_iff] at counted
        subst counted
        cases related
        exact .nil
    | cons node nodes ih =>
        rcases List.exists_cons_of_length_eq_add_one counted.symm with ⟨bits, encodings, rfl⟩
        cases related with
        | cons first others =>
            rcases decodeValue_eq_ok_iff.mp first with ⟨ty, target, encodes⟩
            exact .cons target encodes (ih (Nat.succ.inj counted) others)
  · intro encodes
    induction encodes with
    | nil => exact .nil
    | cons target encodes _ ih =>
        exact .cons (decodeValue_eq_ok_iff.mpr ⟨_, target, encodes⟩) (ih (Nat.succ.inj counted))

theorem ofValues_of_counted (counted : expression.witnessNodes.length = values.length) :
    ofValues expression values =
      ((expression.witnessNodes.zip values).mapM fun (node, value) =>
        encodeValue expression node value).map Witness.mk := by
  rw [ofValues, if_neg (not_not_intro counted)]
  rfl

theorem ofValues_of_miscounted (miscounted : expression.witnessNodes.length ≠ values.length) :
    ofValues expression values =
      .error (.witnessCount expression.witnessNodes.length values.length) := by
  rw [ofValues, if_pos miscounted]
  rfl

theorem ofValues_eq_ok_iff :
    ofValues expression values = .ok witness ↔
      Encodes expression expression.witnessNodes values witness.values := by
  by_cases counted : expression.witnessNodes.length = values.length
  · rw [ofValues_of_counted counted, ← mapM_encodeValue_eq_ok_iff counted]
    rcases witness with ⟨encodings⟩
    cases (expression.witnessNodes.zip values).mapM fun (node, value) =>
      encodeValue expression node value <;> simp [Except.map]
  · rw [ofValues_of_miscounted counted]
    constructor
    · intro impossible
      cases impossible
    · intro encodes
      exact absurd encodes.length_values counted

theorem toValues_eq_ok_iff :
    witness.toValues expression = .ok values ↔
      Encodes expression expression.witnessNodes values witness.values := by
  rw [toValues, checkCount]
  by_cases counted : witness.size = expression.witnessNodes.length
  · rw [if_pos counted]
    exact mapM_decodeValue_eq_ok_iff counted.symm
  · rw [if_neg counted]
    constructor
    · intro impossible
      cases impossible
    · intro encodes
      exact absurd encodes.length_encodings.symm counted

theorem toList_toBits (witness : Witness) :
    witness.toBits.toList = witness.values.flatMap BitString.toList := by
  suffices ∀ (values : List BitString) (start : BitString),
      (values.foldl BitString.append start).toList =
        start.toList ++ values.flatMap BitString.toList from this witness.values .empty
  intro values
  induction values with
  | nil => simp
  | cons bits values ih =>
      intro start
      rw [List.foldl_cons, ih, List.flatMap_cons, ← List.append_assoc]
      congr 1
      exact BitString.toList_append start bits

/-- The values of nodes are read as one encoding after another. -/
theorem readValues_recognizes (nodes : List Nat) (done : List BitString) :
    (readValues expression nodes done).Recognizes fun found written =>
      ∃ values encodings, Encodes expression nodes values encodings ∧
        found = done.reverse ++ encodings ∧ written = encodings.flatMap BitString.toList := by
  induction nodes generalizing done with
  | nil =>
      apply (Decoder.Recognizes.pure done.reverse).congr
      intro found written
      constructor
      · rintro ⟨rfl, rfl⟩
        exact ⟨[], [], .nil, by simp, rfl⟩
      · rintro ⟨values, encodings, encodes, rfl, rfl⟩
        cases encodes
        simp
  | cons node nodes ih =>
      rw [readValues]
      cases target : targetOf expression node with
      | error error =>
          apply (Decoder.Recognizes.throw error).congr
          intro found written
          rw [false_iff]
          rintro ⟨values, encodings, encodes, -⟩
          cases encodes with
          | cons target' =>
              rw [target] at target'
              cases target'
      | ok ty =>
          apply ((Decoder.witnessValue_recognizes ty).bind fun bits _ => ih (bits :: done)).congr
          intro found written
          constructor
          · rintro ⟨bits, _, _, ⟨rfl, value, encodes⟩, ⟨values, encodings, rest, rfl, rfl⟩, rfl⟩
            exact ⟨value :: values, bits :: encodings, .cons target encodes rest, by simp, by simp⟩
          · rintro ⟨_, _, encodes, rfl, rfl⟩
            cases encodes with
            | @cons _ _ value values bits encodings _ target' encodes rest =>
                rw [target] at target'
                cases target'
                exact ⟨bits, _, _, ⟨rfl, value, encodes⟩, ⟨values, encodings, rest, by simp, rfl⟩,
                  by simp⟩

theorem decode_eq_ok_iff_readValues {bytes : ByteArray} {limits : Limits} :
    decode bytes expression limits = .ok witness ↔
      limits.validate = .ok () ∧ bytes.size ≤ limits.maxWitnessBytes ∧
        ∃ cursor, readValues expression expression.witnessNodes [] (.ofBytes bytes) =
            .ok witness.values cursor ∧ cursor.finish .witness = .ok () := by
  rw [decode, Limits.check]
  cases limits.validate with
  | error error => simp [Except.mapError, bind, Except.bind]
  | ok =>
      simp only [Except.mapError, bind, Except.bind, true_and]
      rcases Nat.lt_or_ge limits.maxWitnessBytes bytes.size with large | small
      · simp [large, Nat.not_le.mpr large, throw, throwThe, MonadExceptOf.throw]
      · simp only [Nat.not_lt.mpr small, small, if_false, true_and]
        cases readValues expression expression.witnessNodes [] (.ofBytes bytes) with
        | error error cursor => simp [throw, throwThe, MonadExceptOf.throw]
        | ok values cursor =>
            simp only [EStateM.Result.ok.injEq]
            cases finished : cursor.finish .witness with
            | error cause =>
                constructor
                · intro impossible
                  cases cause <;> cases impossible
                · rintro ⟨_, ⟨-, rfl⟩, succeeds⟩
                  rw [finished] at succeeds
                  cases succeeds
            | ok =>
                constructor
                · rintro ⟨⟩
                  exact ⟨cursor, ⟨rfl, rfl⟩, finished⟩
                · rintro ⟨_, ⟨rfl, -⟩, -⟩
                  rfl

theorem decode_eq_ok_iff {bytes : ByteArray} {limits : Limits} :
    decode bytes expression limits = .ok witness ↔
      limits.validate = .ok () ∧ bytes.size ≤ limits.maxWitnessBytes ∧
        (∃ values, Encodes expression expression.witnessNodes values witness.values) ∧
        witness.encode = bytes := by
  have encode_eq : (BitString.ofBits (witness.values.flatMap BitString.toList)).bytes =
      witness.encode := by
    congr 1
    apply BitString.eq_of_toList_eq
    rw [BitString.toList_ofBits, toList_toBits]
  rw [decode_eq_ok_iff_readValues, (readValues_recognizes _ []).whole_iff]
  constructor
  · rintro ⟨valid, small, _, ⟨values, encodings, encodes, rfl, rfl⟩, rfl⟩
    exact ⟨valid, small, ⟨values, encodes⟩, encode_eq.symm⟩
  · rintro ⟨valid, small, ⟨values, encodes⟩, rfl⟩
    exact ⟨valid, small, _, ⟨values, _, encodes, rfl, rfl⟩, encode_eq.symm⟩

/-- A value has an encoding at the target type of a node. -/
def Fits (expression : Expression) (node : Nat) (value : Value) : Prop :=
  ∃ arrow bits, expression.arrow? node = some arrow ∧ value.toBits arrow.target = .ok bits

/-- The first value without an encoding at the target type of its node is the one of this node. -/
def FirstMisfit (expression : Expression) (values : List Value) (node : Nat) : Prop :=
  ∃ before value after arrow,
    expression.witnessNodes.zip values = before ++ (node, value) :: after ∧
      (∀ entry ∈ before, Fits expression entry.1 entry.2) ∧
      expression.arrow? node = some arrow ∧ ∀ bits, value.toBits arrow.target ≠ .ok bits

theorem exists_encodeValue_iff {node : Nat} {value : Value} :
    (∃ bits, encodeValue expression node value = .ok bits) ↔ Fits expression node value := by
  simp only [encodeValue_eq_ok_iff, Fits, targetOf, ← Value.toBits_eq_ok_iff]
  cases expression.arrow? node <;> simp

theorem encodeValue_eq_error_iff {node : Nat} {value : Value} {error : Error}
    (member : node ∈ expression.witnessNodes) :
    encodeValue expression node value = .error error ↔
      error = .witnessType node ∧
        ∃ arrow, expression.arrow? node = some arrow ∧
          ∀ bits, value.toBits arrow.target ≠ .ok bits := by
  have isNode := (expression.mem_witnessNodes_iff node).mp member
  rcases Expression.exists_arrow? isNode rfl with ⟨arrow, typed⟩
  simp only [encodeValue, targetOf, typed, bind, Except.bind, Option.some.injEq, exists_eq_left']
  cases value.toBits arrow.target <;> simp [Except.mapError, eq_comm]

theorem ofValues_eq_error_iff {error : Error} :
    ofValues expression values = .error error ↔
      (expression.witnessNodes.length ≠ values.length ∧
          error = .witnessCount expression.witnessNodes.length values.length) ∨
        expression.witnessNodes.length = values.length ∧
          ∃ node, error = .witnessType node ∧ FirstMisfit expression values node := by
  by_cases counted : expression.witnessNodes.length = values.length
  · have passes : ofValues expression values = .error error ↔
        ((expression.witnessNodes.zip values).mapM fun (node, value) =>
          encodeValue expression node value) = .error error := by
      rw [ofValues_of_counted counted]
      cases (expression.witnessNodes.zip values).mapM fun (node, value) =>
        encodeValue expression node value <;> simp [Except.map]
    simp only [passes, mapM_eq_error_iff, exists_encodeValue_iff, counted, ne_eq, not_true,
      false_and, false_or, true_and]
    constructor
    · rintro ⟨before, ⟨node, value⟩, after, split, fits, fails⟩
      have member : node ∈ expression.witnessNodes :=
        (List.of_mem_zip (split ▸ List.mem_append_right _ List.mem_cons_self)).1
      rcases (encodeValue_eq_error_iff member).mp fails with ⟨rfl, arrow, typed, misfits⟩
      exact ⟨node, rfl, before, value, after, arrow, split, fits, typed, misfits⟩
    · rintro ⟨node, rfl, before, value, after, arrow, split, fits, typed, misfits⟩
      have member : node ∈ expression.witnessNodes :=
        (List.of_mem_zip (split ▸ List.mem_append_right _ List.mem_cons_self)).1
      exact ⟨before, (node, value), after, split, fits,
        (encodeValue_eq_error_iff member).mpr ⟨rfl, arrow, typed, misfits⟩⟩
  · rw [ofValues_of_miscounted counted]
    constructor
    · rintro ⟨⟩
      exact .inl ⟨counted, rfl⟩
    · rintro (⟨-, rfl⟩ | ⟨same, -⟩)
      · rfl
      · exact absurd same counted

/-- Bytes within the limits are read as a witness exactly if some values make up that witness and it
is written as those bytes; these values are the only ones, and they can be had back from the witness.
Values are refused if there are too many or too few of them, and otherwise for the first of them
that has no encoding at the target type of its node. -/
theorem decode_eq_ok_iff_ofValues (expression : Expression) (bytes : ByteArray) (limits : Limits)
    (witness : Witness) (values : List Value) (error : Error) :
    (decode bytes expression limits = .ok witness ↔
      limits.validate = .ok () ∧ bytes.size ≤ limits.maxWitnessBytes ∧
        ∃! values, ofValues expression values = .ok witness ∧ witness.encode = bytes) ∧
    (ofValues expression values = .ok witness ↔ witness.toValues expression = .ok values) ∧
    (ofValues expression values = .error error ↔
      (expression.witnessNodes.length ≠ values.length ∧
          error = .witnessCount expression.witnessNodes.length values.length) ∨
        expression.witnessNodes.length = values.length ∧
          ∃ node, error = .witnessType node ∧ FirstMisfit expression values node) := by
  refine ⟨?_, ?_, ofValues_eq_error_iff⟩
  · rw [decode_eq_ok_iff]
    simp only [ofValues_eq_ok_iff]
    constructor
    · rintro ⟨valid, small, ⟨values, encodes⟩, written⟩
      refine ⟨valid, small, values, ⟨encodes, written⟩, ?_⟩
      rintro values' ⟨encodes', -⟩
      exact encodes'.values_eq encodes
    · rintro ⟨valid, small, values, ⟨encodes, written⟩, -⟩
      exact ⟨valid, small, ⟨values, encodes⟩, written⟩
  · rw [ofValues_eq_ok_iff, toValues_eq_ok_iff]

end Witness

end Simplicity
