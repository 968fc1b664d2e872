import Simplicity.Proofs.Limits
import Simplicity.Proofs.Stream.Locality
import Simplicity.Proofs.Witness.Encoding

/-!
# Streams that say where they end

A program declares how many nodes it has, and a witness is read against an expression. So both streams
end where their contents end, up to a part of a byte, and neither more nor fewer bytes are accepted.

* With bytes missing, reading gets to the place where the bits end and fails there. Since decoders are
  local, no other check fails before that.
* With bytes added, reading does what it did without them, and at least a byte is left over.

A program that ends early is told apart from one that goes on. A witness is refused for its length in
both cases, and the number of bits that were consumed tells which it is: all there are, or those of the
witness.
-/

namespace Simplicity

/-- The bits of a program end inside one of its fields. -/
def Error.EndsEarly (error : Error) : Prop :=
  ∃ field : Field, field.stream = .program ∧ error = .malformed (.unexpectedEnd field)

namespace Cursor

variable {head tail : ByteArray} {position : Nat} {stream : Stream}

/-- Where a stream is complete, a stream of fewer bytes is over. -/
theorem lt_of_finish (more : 0 < tail.size)
    (finished : (Cursor.mk (.ofBytes (head ++ tail)) position).finish stream = .ok ()) :
    (BitString.ofBytes head).length < position := by
  have short := ((finish_eq_ok_iff _ _).mp finished).1
  rw [length_rest] at short
  change 8 * (head ++ tail).size - position < 8 at short
  change 8 * head.size < position
  rw [ByteArray.size_append] at short
  omega

/-- Inside a stream, a stream of more bytes has at least a byte left. -/
theorem finish_of_le (more : 0 < tail.size) (inside : position ≤ (BitString.ofBytes head).length) :
    (Cursor.mk (.ofBytes (head ++ tail)) position).finish stream =
      .error (.trailingBytes stream position (8 * (head ++ tail).size - position)) := by
  apply if_pos
  change 8 ≤ 8 * (head ++ tail).size - position
  change position ≤ 8 * head.size at inside
  rw [ByteArray.size_append]
  omega

end Cursor

namespace Decoder

variable {α : Type}

theorem Local.orReject {decoder : Decoder StreamError α} {field : Field}
    (isLocal : decoder.Local fun error _ => error = .unexpectedEnd field)
    (ofProgram : field.stream = .program) : decoder.orReject.Local fun error _ => error.EndsEarly := by
  apply isLocal.adaptExcept
  rintro error stopped rfl
  exact ⟨field, ofProgram, rfl⟩

theorem nodeBit_local : (bit .nodeCode).orReject.Local fun error _ => error.EndsEarly :=
  ((bit_local .nodeCode).mono And.left).orReject rfl

theorem child_local (index : Nat) : (child index).Local fun error _ => error.EndsEarly :=
  ((natural_local .childOffset).orReject rfl).bind fun _ => .ite (.throw _) (.pure _)

theorem children_local (index : Nat) (node : Nat → Nat → Node) :
    (children index node).Local fun error _ => error.EndsEarly :=
  (child_local index).bind fun _ => (child_local index).bind fun _ => .pure _

theorem branching_local (index : Nat) : (branching index).Local fun error _ => error.EndsEarly := by
  apply ((bits_local 3 .nodeCode).orReject rfl).bind
  intro code
  split
  iterate 4
    · exact children_local index _
  iterate 4
    · exact (child_local index).bind fun _ => .pure _

theorem leaf_local (index : Nat) : (leaf index).Local fun error _ => error.EndsEarly := by
  apply ((bits_local 2 .nodeCode).orReject rfl).bind
  intro code
  split
  · exact .pure _
  · exact .pure _
  · exact .throw _
  · exact .throw _

theorem node_local (index : Nat) : (node index).Local fun error _ => error.EndsEarly := by
  have payload_local := (bytes_local (by decide : 0 < 32) .hiddenPayload).orReject rfl
  exact nodeBit_local.bind fun _ => .ite (nodeBit_local.bind fun _ => .ite (.throw _) (.throw _))
    (nodeBit_local.bind fun _ => .ite
      (nodeBit_local.bind fun _ => .ite
        (nodeBit_local.bind fun _ => .ite (.pure _) (payload_local.bind fun _ => .pure _))
        (leaf_local index))
      (branching_local index))

theorem nodes_local (count : Nat) (done : Array Node) :
    (nodes count done).Local fun error _ => error.EndsEarly := by
  induction count generalizing done with
  | zero => exact .pure done
  | succ count ih => exact (node_local done.size).bind fun next => ih (done.push next)

/-- Values are copied bit by bit, so nothing is left where the bits end. -/
theorem compactAll_local (pending : List Ty) (out : BitString) :
    (compactAll pending out).Local fun _ stopped => stopped.position = stopped.source.length := by
  have bit_ends : (bit .witnessValue).Local fun _ stopped =>
      stopped.position = stopped.source.length :=
    (bit_local .witnessValue).mono And.right
  fun_induction compactAll pending out with
  | case1 out => exact .pure out
  | case2 ty pending out narrow ih => exact ih
  | case3 pending out wide ih => exact ih
  | case4 pending out left right wide ihRight ihLeft =>
      exact bit_ends.bind fun _ => .ite ihRight ihLeft
  | case5 pending out left right wide ih => exact ih

theorem compact_local (ty : Ty) :
    (compact ty).Local fun _ stopped => stopped.position = stopped.source.length :=
  compactAll_local [ty] .empty

theorem witnessValue_local (ty : Ty) : (witnessValue ty).Local fun error stopped =>
    error = .witnessLength stopped.source.length stopped.source.length := by
  apply (compact_local ty).of_ok_iff
  · intro cursor bits next
    rw [witnessValue]
    cases compact ty cursor <;> simp
  · intro cursor error stopped fails ended
    refine ⟨.witnessLength stopped.source.length stopped.position, ?_, ?_⟩
    · rw [witnessValue, fails]
    · exact congrArg (Error.witnessLength stopped.source.length) ended

end Decoder

namespace Expression

theorem readNodes_local (maxNodes : Nat) :
    (readNodes maxNodes).Local fun error _ => error.EndsEarly :=
  ((Decoder.natural_local .nodeCount).orReject rfl).bind fun count =>
    .ite (.throw _) (Decoder.nodes_local count #[])

/-- Reading the nodes of a program consumes the bits of the expression that they make up. -/
theorem exists_toBits_of_decode {bytes : ByteArray} {limits : Limits} {expression : Expression}
    (decodes : decode bytes limits = .ok expression) :
    ∃ bits nodes, expression.toBits = .ok bits ∧
      readNodes limits.maxNodes (.ofBytes bytes) = .ok nodes ⟨.ofBytes bytes, bits.length⟩ ∧
      (Cursor.mk (.ofBytes bytes) bits.length).finish .program = .ok () := by
  rcases (decode_eq_ok_iff_readNodes _ _ _).mp decodes with
    ⟨-, -, nodes, ⟨cursor, reads, finished⟩, lists⟩
  rcases (readNodes_recognizes _ _ _ _).mp reads with
    ⟨_, ⟨⟨-, inRange, -⟩, ⟨plain, -⟩, rfl⟩, -, rfl⟩
  have same : nodes.toList = expression.nodes.toList.map Combinator.asChoice := by
    rw [← plain]
    exact (Dag.asChoice_of_ofNodes ((ofNodes_eq_ok_iff _ _).mp lists)).symm
  have sized : expression.size = nodes.size := by
    rw [← Array.length_toList, same, List.length_map]
    rfl
  have bits_eq : programBits expression.nodes.toList = programBits nodes.toList := by
    rw [same, programBits_map_asChoice]
  refine ⟨.ofBits (programBits nodes.toList), nodes, ?_, ?_, ?_⟩
  · rw [toBits_eq_ok_iff, BitString.toList_ofBits, bits_eq]
    exact ⟨sized ▸ inRange, rfl⟩
  · rw [reads, ← BitString.length_toList, BitString.toList_ofBits, Cursor.advance]
    exact congrArg _ (congrArg _ (Nat.zero_add _))
  · rw [← finished, ← BitString.length_toList, BitString.toList_ofBits, Cursor.advance]
    exact congrArg (fun position => (Cursor.mk _ position).finish _) (Nat.zero_add _).symm

variable {head tail : ByteArray} {limits : Limits} {expression : Expression}

/-- A program without some of its last bytes ends early. -/
theorem decode_truncated (more : 0 < tail.size)
    (decodes : decode (head ++ tail) limits = .ok expression) :
    ∃ error, decode head limits = .error error ∧ error.EndsEarly := by
  rcases (decode_eq_ok_iff_readNodes _ _ _).mp decodes with ⟨valid, small, -⟩
  obtain ⟨bits, nodes, -, reads, finished⟩ := exists_toBits_of_decode decodes
  rcases (readNodes_local limits.maxNodes).ends (BitString.toList_ofBytes_append head tail)
    (Nat.zero_le _) reads (Cursor.lt_of_finish more finished) with ⟨error, stopped, fails, ended⟩
  refine ⟨error, ?_, ended⟩
  rw [ByteArray.size_append] at small
  rw [decode_of_valid valid, if_neg (by omega), Cursor.ofBytes, fails]

/-- A program with more bytes after it has bytes left over. -/
theorem decode_extended (more : 0 < tail.size) (decodes : decode head limits = .ok expression)
    (small : (head ++ tail).size ≤ limits.maxProgramBytes) :
    ∃ bits, expression.toBits = .ok bits ∧
      decode (head ++ tail) limits = .error (.malformed (.trailingBytes .program bits.length
        (8 * (head ++ tail).size - bits.length))) := by
  rcases (decode_eq_ok_iff_readNodes _ _ _).mp decodes with ⟨valid, -⟩
  obtain ⟨bits, nodes, writes, reads, finished⟩ := exists_toBits_of_decode decodes
  have recognizes := readNodes_recognizes limits.maxNodes
  have readsMore := recognizes.extend (BitString.toList_ofBytes_append head tail) reads
  have left := @Cursor.finish_of_le _ _ _ .program more (recognizes.position_le (Nat.zero_le _) reads)
  refine ⟨bits, writes, ?_⟩
  rw [decode_of_valid valid, if_neg (by omega), Cursor.ofBytes, readsMore]
  simp only [left]
  rfl

end Expression

namespace Witness

variable {head tail : ByteArray} {limits : Limits} {expression : Expression} {witness : Witness}

theorem readValues_local (expression : Expression) (nodes : List Nat) (done : List BitString) :
    (readValues expression nodes done).Local fun error stopped =>
      error = .witnessLength stopped.source.length stopped.source.length := by
  induction nodes generalizing done with
  | nil => exact .pure done.reverse
  | cons node nodes ih =>
      rw [readValues]
      cases targetOf expression node with
      | error error => exact .throw error
      | ok ty => exact (Decoder.witnessValue_local ty).bind fun bits => ih (bits :: done)

theorem length_flatMap_values (witness : Witness) :
    (witness.values.flatMap BitString.toList).length = witness.bitLength := by
  suffices ∀ (values : List BitString) (start : Nat),
      values.foldl (fun total bits => total + bits.length) start =
        start + (values.flatMap BitString.toList).length by
    rw [bitLength, this, Nat.zero_add]
  intro values
  induction values with
  | nil => simp
  | cons bits values ih =>
      intro start
      rw [List.foldl_cons, ih, List.flatMap_cons, List.length_append, BitString.length_toList,
        Nat.add_assoc]

/-- Reading a witness consumes the bits of its values. -/
theorem readValues_of_decode {bytes : ByteArray}
    (decodes : decode bytes expression limits = .ok witness) :
    readValues expression expression.witnessNodes [] (.ofBytes bytes) =
        .ok witness.values ⟨.ofBytes bytes, witness.bitLength⟩ ∧
      (Cursor.mk (.ofBytes bytes) witness.bitLength).finish .witness = .ok () := by
  rcases decode_eq_ok_iff_readValues.mp decodes with ⟨-, -, cursor, reads, finished⟩
  rcases (readValues_recognizes _ _ _ _ _).mp reads with
    ⟨_, ⟨values, encodings, -, found, rfl⟩, -, rfl⟩
  have position_eq : (Cursor.ofBytes bytes).advance (encodings.flatMap BitString.toList).length =
      ⟨.ofBytes bytes, witness.bitLength⟩ := by
    rw [List.reverse_nil, List.nil_append] at found
    rw [← found, length_flatMap_values, Cursor.advance]
    exact congrArg _ (Nat.zero_add _)
  rw [position_eq] at reads finished
  exact ⟨reads, finished⟩

theorem decode_of_readValues_error {bytes : ByteArray} {error : Error} {stopped : Cursor}
    (valid : limits.validate = .ok ()) (small : bytes.size ≤ limits.maxWitnessBytes)
    (fails : readValues expression expression.witnessNodes [] (.ofBytes bytes) =
      .error error stopped) : decode bytes expression limits = .error error := by
  rw [decode, Limits.check_of_valid valid]
  simp only [Nat.not_lt.mpr small, if_false, fails]
  rfl

theorem decode_of_trailingBytes {bytes : ByteArray} {values : List BitString} {cursor : Cursor}
    {consumed remaining : Nat} (valid : limits.validate = .ok ())
    (small : bytes.size ≤ limits.maxWitnessBytes)
    (reads : readValues expression expression.witnessNodes [] (.ofBytes bytes) = .ok values cursor)
    (left : cursor.finish .witness = .error (.trailingBytes .witness consumed remaining)) :
    decode bytes expression limits = .error (.witnessLength cursor.source.length consumed) := by
  rw [decode, Limits.check_of_valid valid]
  simp only [Nat.not_lt.mpr small, if_false, reads, left]
  rfl

/-- A witness without some of its last bytes is consumed to its end and refused. -/
theorem decode_truncated (more : 0 < tail.size)
    (decodes : decode (head ++ tail) expression limits = .ok witness) :
    decode head expression limits = .error (.witnessLength (8 * head.size) (8 * head.size)) := by
  rcases decode_eq_ok_iff_readValues.mp decodes with ⟨valid, small, -⟩
  obtain ⟨reads, finished⟩ := readValues_of_decode decodes
  rcases (readValues_local expression expression.witnessNodes []).ends
    (BitString.toList_ofBytes_append head tail) (Nat.zero_le _) reads
    (Cursor.lt_of_finish more finished) with ⟨error, stopped, fails, rfl⟩
  rw [ByteArray.size_append] at small
  exact decode_of_readValues_error valid (by omega) fails

/-- A witness with more bytes after it is refused after its own bits are consumed. -/
theorem decode_extended (more : 0 < tail.size)
    (decodes : decode head expression limits = .ok witness)
    (small : (head ++ tail).size ≤ limits.maxWitnessBytes) :
    decode (head ++ tail) expression limits =
      .error (.witnessLength (8 * (head ++ tail).size) witness.bitLength) := by
  rcases decode_eq_ok_iff_readValues.mp decodes with ⟨valid, -⟩
  obtain ⟨reads, -⟩ := readValues_of_decode decodes
  have recognizes := @readValues_recognizes expression expression.witnessNodes []
  exact decode_of_trailingBytes valid small
    (recognizes.extend (BitString.toList_ofBytes_append head tail) reads)
    (Cursor.finish_of_le more (recognizes.position_le (Nat.zero_le _) reads))

end Witness

/-- Neither stream of a program can be cut short or gone on with. A program that lacks some of its last
bytes ends early, and one that is followed by more bytes leaves them over behind its own bits. A
witness that lacks some of its last bytes is refused with all of its bits consumed, and one that is
followed by more bytes is refused with those bits consumed that reading its values consumes. -/
theorem decode_delimits (limits : Limits) (head tail : ByteArray) (more : 0 < tail.size) :
    (∀ expression, Expression.decode (head ++ tail) limits = .ok expression →
      ∃ field : Field, field.stream = .program ∧
        Expression.decode head limits = .error (.malformed (.unexpectedEnd field))) ∧
    (∀ expression, Expression.decode head limits = .ok expression →
      (head ++ tail).size ≤ limits.maxProgramBytes →
      ∃ bits, expression.toBits = .ok bits ∧
        Expression.decode (head ++ tail) limits =
          .error (.malformed (.trailingBytes .program bits.length
            (8 * (head ++ tail).size - bits.length)))) ∧
    (∀ expression witness, Witness.decode (head ++ tail) expression limits = .ok witness →
      Witness.decode head expression limits =
        .error (.witnessLength (8 * head.size) (8 * head.size))) ∧
    ∀ expression witness, Witness.decode head expression limits = .ok witness →
      (head ++ tail).size ≤ limits.maxWitnessBytes →
      Witness.readValues expression expression.witnessNodes [] (.ofBytes head) =
          .ok witness.values ⟨.ofBytes head, witness.bitLength⟩ ∧
        Witness.decode (head ++ tail) expression limits =
          .error (.witnessLength (8 * (head ++ tail).size) witness.bitLength) := by
  refine ⟨?_, ?_, ?_, ?_⟩
  · intro expression decodes
    rcases Expression.decode_truncated more decodes with ⟨_, fails, field, ofProgram, rfl⟩
    exact ⟨field, ofProgram, fails⟩
  · intro expression decodes small
    exact Expression.decode_extended more decodes small
  · intro expression witness decodes
    exact Witness.decode_truncated more decodes
  · intro expression witness decodes small
    exact ⟨(Witness.readValues_of_decode decodes).1, Witness.decode_extended more decodes small⟩

/-- A program that chooses by a bit of its witness, cut short by a byte and followed by one. -/
theorem decode_delimits_bitChoice : ∃ expression witness,
    (Expression.decode (⟨#[0xc9, 0xd2, 0x28, 0x48, 0x40]⟩ ++ ⟨#[0x50]⟩) .standard =
        .ok expression ∧
      ∃ field : Field, field.stream = .program ∧
        Expression.decode ⟨#[0xc9, 0xd2, 0x28, 0x48, 0x40]⟩ .standard =
          .error (.malformed (.unexpectedEnd field))) ∧
    (∃ bits, expression.toBits = .ok bits ∧
      Expression.decode (⟨#[0xc9, 0xd2, 0x28, 0x48, 0x40, 0x50]⟩ ++ ⟨#[0x00]⟩) .standard =
        .error (.malformed (.trailingBytes .program bits.length (8 * 7 - bits.length)))) ∧
    (Witness.decode (⟨#[]⟩ ++ ⟨#[0x80]⟩) expression .standard = .ok witness ∧
      Witness.decode ⟨#[]⟩ expression .standard = .error (.witnessLength 0 0)) ∧
    Witness.decode (⟨#[0x80]⟩ ++ ⟨#[0x00]⟩) expression .standard =
      .error (.witnessLength (8 * 2) witness.bitLength) := by
  have checked : ((Expression.decode ⟨#[0xc9, 0xd2, 0x28, 0x48, 0x40, 0x50]⟩
      .standard).toOption.any fun expression =>
        (Witness.decode ⟨#[0x80]⟩ expression .standard).isOk) = true := by
    decide +kernel
  cases decodes : Expression.decode ⟨#[0xc9, 0xd2, 0x28, 0x48, 0x40, 0x50]⟩ .standard with
  | error error =>
      rw [decodes] at checked
      cases checked
  | ok expression =>
      cases decodes' : Witness.decode ⟨#[0x80]⟩ expression .standard with
      | error error =>
          rw [decodes] at checked
          simp only [Except.toOption, Option.any, decodes'] at checked
          cases checked
      | ok witness =>
          have cut := decode_delimits .standard ⟨#[0xc9, 0xd2, 0x28, 0x48, 0x40]⟩ ⟨#[0x50]⟩
            (by decide)
          have extended := decode_delimits .standard ⟨#[0xc9, 0xd2, 0x28, 0x48, 0x40, 0x50]⟩
            ⟨#[0x00]⟩ (by decide)
          have cut' := decode_delimits .standard ⟨#[]⟩ ⟨#[0x80]⟩ (by decide)
          have extended' := decode_delimits .standard ⟨#[0x80]⟩ ⟨#[0x00]⟩ (by decide)
          exact ⟨expression, witness, ⟨decodes, cut.1 expression decodes⟩,
            extended.2.1 expression decodes (by decide),
            ⟨decodes', cut'.2.2.1 expression witness decodes'⟩,
            (extended'.2.2.2 expression witness decodes' (by decide)).2⟩

end Simplicity
