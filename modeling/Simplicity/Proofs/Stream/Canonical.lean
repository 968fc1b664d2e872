import Simplicity.Proofs.Stream.Natural

/-!
# Numbers are written in one way

The code of a number is defined from the outside in, and so it is appended. A writer that works on a
string in place would rather go from the inside out: it lists the number, its logarithm, the logarithm
of that and so on down to one, writes a one for each step of the list and a zero, and then goes back
through the list and writes the low bits of each number. `Encoder.natural` is that writer. It writes the
code and nothing else, and it looks at the range before it writes anything.

The decoder reads a number exactly where its code stands. A code that starts another one is therefore
read where the other one stands, and reading has one outcome only, so no code starts another one.
-/

namespace Simplicity

/-- The number, its logarithm, the logarithm of that, and so on down to one. -/
def logarithms (value : Nat) : List Nat :=
  if value ≤ 1 then [value] else value :: logarithms value.log2
termination_by value
decreasing_by exact log2_lt_self (by assumption)

/-- The numbers of such a list with their logarithms, the smallest first. -/
def levelPairs (value : Nat) : List (Nat × Nat) :=
  ((logarithms value).zip (logarithms value).tail).reverse

/-- A computation that appends to a bit string and may fail, in either case leaving the string as it
came to be. -/
abbrev Encoder (ε α : Type) : Type :=
  EStateM ε BitString α

/-- Writes a number from the inside out. -/
def Encoder.natural (value : Nat) (field : Field) : Encoder StreamError Unit := do
  if value = 0 ∨ maxNatural < value then
    throw (.naturalOverflow field)
  (logarithms value).tail.forM fun _ => modify (·.push true)
  modify (·.push false)
  (levelPairs value).forM fun pair => modify (·.appendBits pair.1 pair.2)

theorem length_naturalBits (value : Nat) : (naturalBits value).length = naturalLength value := by
  induction value using Nat.strongRecOn with
  | ind value ih =>
      rw [naturalBits, naturalLength]
      split
      · rfl
      · rename_i large
        simp only [List.length_cons, List.length_append, BitString.length_lowBits,
          ih _ (log2_lt_self large)]
        omega

theorem exists_logarithms_eq_cons (value : Nat) : ∃ rest, logarithms value = value :: rest := by
  rw [logarithms]
  split
  · exact ⟨[], rfl⟩
  · exact ⟨_, rfl⟩

theorem levelPairs_of_large {value : Nat} (large : ¬ value ≤ 1) :
    levelPairs value = levelPairs value.log2 ++ [(value, value.log2)] := by
  obtain ⟨rest, listed⟩ := exists_logarithms_eq_cons value.log2
  rw [levelPairs, levelPairs, logarithms, if_neg large, listed]
  simp

theorem length_tail_logarithms (value : Nat) :
    (logarithms value).tail.length = naturalDepth value := by
  induction value using Nat.strongRecOn with
  | ind value ih =>
      rw [logarithms, naturalDepth]
      split
      · rfl
      · rename_i large
        obtain ⟨rest, listed⟩ := exists_logarithms_eq_cons value.log2
        rw [← ih _ (log2_lt_self large), listed]
        rfl

theorem flatMap_levelPairs (value : Nat) :
    ((levelPairs value).flatMap fun pair => BitString.lowBits pair.1 pair.2) =
      naturalTail value := by
  induction value using Nat.strongRecOn with
  | ind value ih =>
      by_cases large : value ≤ 1
      · rw [levelPairs, logarithms, naturalTail, if_pos large, if_pos large]
        rfl
      · rw [levelPairs_of_large large, naturalTail, if_neg large, List.flatMap_append,
          ih _ (log2_lt_self large)]
        simp

namespace Encoder

variable {ε : Type}

/-- Appending one item after another appends the bits of all items. -/
theorem exists_forM {ι : Type} {append : BitString → ι → BitString} {bitsOf : ι → List Bool}
    (appends : ∀ out item, (append out item).toList = out.toList ++ bitsOf item)
    (items : List ι) (out : BitString) :
    ∃ result, (items.forM fun item => (modify (append · item) : Encoder ε Unit)) out =
        .ok () result ∧ result.toList = out.toList ++ items.flatMap bitsOf := by
  induction items generalizing out with
  | nil => exact ⟨out, rfl, by simp⟩
  | cons item rest ih =>
      obtain ⟨result, writes, written⟩ := ih (append out item)
      refine ⟨result, writes, ?_⟩
      rw [written, appends, List.flatMap_cons, List.append_assoc]

theorem natural_of_inRange {value : Nat} (positive : 0 < value) (small : value ≤ maxNatural)
    (field : Field) (out : BitString) :
    ∃ result, natural value field out = .ok () result ∧
      result.toList = out.toList ++ naturalBits value := by
  obtain ⟨ones, writesOnes, ones_eq⟩ := @exists_forM StreamError _ (fun out _ => out.push true) _
    (fun out _ => BitString.toList_push out true) (logarithms value).tail out
  obtain ⟨result, writesLevels, result_eq⟩ := @exists_forM StreamError _
    (fun out pair => out.appendBits pair.1 pair.2) _
    (fun out pair => BitString.toList_appendBits out pair.1 pair.2) (levelPairs value)
    (ones.push false)
  refine ⟨result, ?_, ?_⟩
  · rw [natural, if_neg (by omega)]
    exact (bind_of_ok writesOnes).trans writesLevels
  · rw [result_eq, BitString.toList_push, ones_eq, ← List.map_eq_flatMap, List.map_const',
      length_tail_logarithms, flatMap_levelPairs, naturalBits_eq]
    simp

theorem natural_of_outOfRange {value : Nat} (outside : value = 0 ∨ maxNatural < value)
    (field : Field) (out : BitString) :
    natural value field out = .error (.naturalOverflow field) out := by
  rw [natural, if_pos outside]
  rfl

end Encoder

/-- Bits that start with the codes of two numbers start with one code. -/
theorem eq_of_naturalBits_prefix {value value' : Nat} (inRange : 0 < value ∧ value ≤ maxNatural)
    (inRange' : 0 < value' ∧ value' ≤ maxNatural) {bits : List Bool}
    (starts : naturalBits value <+: bits) (starts' : naturalBits value' <+: bits) :
    value = value' := by
  let cursor : Cursor := ⟨.ofBits bits, 0⟩
  have ahead : cursor.rest = bits := BitString.toList_ofBits bits
  have recognizes := Decoder.natural_recognizes ⟨.program, "number"⟩ cursor
  have reads := (recognizes value _).mpr ⟨_, ⟨inRange, rfl⟩, ahead ▸ starts, rfl⟩
  have reads' := (recognizes value' _).mpr ⟨_, ⟨inRange', rfl⟩, ahead ▸ starts', rfl⟩
  rw [reads] at reads'
  cases reads'
  rfl

theorem Decoder.natural_eq_ok_iff (field : Field) (cursor : Cursor) (value : Nat) (next : Cursor) :
    Decoder.natural field cursor = .ok value next ↔
      (0 < value ∧ value ≤ maxNatural) ∧ naturalBits value <+: cursor.rest ∧
        next = cursor.advance (naturalLength value) := by
  rw [natural_recognizes]
  constructor
  · rintro ⟨_, ⟨inRange, rfl⟩, starts, rfl⟩
    rw [length_naturalBits]
    exact ⟨inRange, starts, rfl⟩
  · rintro ⟨inRange, starts, rfl⟩
    rw [← length_naturalBits]
    exact ⟨_, ⟨inRange, rfl⟩, starts, rfl⟩

theorem BitString.appendNatural_of_inRange {value : Nat} (positive : 0 < value)
    (small : value ≤ maxNatural) (field : Field) (out : BitString) :
    ∃ result, out.appendNatural value field = .ok result ∧
      result.toList = out.toList ++ naturalBits value := by
  refine ⟨.ofBits (out.toList ++ naturalBits value), ?_, toList_ofBits _⟩
  exact (appendNatural_eq_ok_iff _ _ _ _).mpr ⟨⟨positive, small⟩, toList_ofBits _⟩

theorem BitString.appendNatural_of_outOfRange {value : Nat}
    (outside : value = 0 ∨ maxNatural < value) (field : Field) (out : BitString) :
    out.appendNatural value field = .error (.naturalOverflow field) :=
  if_pos outside

/-- Writing a number in range appends its code, which is as long as `naturalLength` says; any other
number is refused and nothing is written. A number is read exactly where the bits ahead start with its
code, and the decoder then stands behind it. So no code starts another one, and writing a number that was
read gives the bits that reading it has consumed. -/
theorem natural_canonical (field : Field) :
    (∀ (value : Nat) (out : BitString), 0 < value → value ≤ maxNatural →
      ∃ result, out.appendNatural value field = .ok result ∧
        Encoder.natural value field out = .ok () result ∧
        result.toList = out.toList ++ naturalBits value ∧
        result.length = out.length + naturalLength value) ∧
    (∀ (value : Nat) (out : BitString), value = 0 ∨ maxNatural < value →
      out.appendNatural value field = .error (.naturalOverflow field) ∧
        Encoder.natural value field out = .error (.naturalOverflow field) out) ∧
    (∀ (slice : ByteArray) (position value : Nat) (next : Cursor),
      Decoder.natural field ⟨.ofBytes slice, position⟩ = .ok value next ↔
        (0 < value ∧ value ≤ maxNatural) ∧
          naturalBits value <+: (BitString.ofBytes slice).toList.drop position ∧
          next = ⟨.ofBytes slice, position + naturalLength value⟩) ∧
    (∀ value value' : Nat, 0 < value → value ≤ maxNatural → 0 < value' → value' ≤ maxNatural →
      naturalBits value <+: naturalBits value' → value = value') ∧
    ∀ (slice : ByteArray) (position value : Nat) (next : Cursor),
      Decoder.natural field ⟨.ofBytes slice, position⟩ = .ok value next →
        ∃ written, BitString.empty.appendNatural value field = .ok written ∧
          written.toList =
            ((BitString.ofBytes slice).toList.drop position).take (next.position - position) := by
  refine ⟨?_, ?_, ?_, ?_, ?_⟩
  · intro value out positive small
    obtain ⟨result, appends, written⟩ :=
      BitString.appendNatural_of_inRange positive small field out
    obtain ⟨result', writes, written'⟩ := Encoder.natural_of_inRange positive small field out
    have same : result' = result := BitString.eq_of_toList_eq (written'.trans written.symm)
    refine ⟨result, appends, same ▸ writes, written, ?_⟩
    rw [← BitString.length_toList, written, List.length_append, BitString.length_toList,
      length_naturalBits]
  · intro value out outside
    exact ⟨BitString.appendNatural_of_outOfRange outside field out,
      Encoder.natural_of_outOfRange outside field out⟩
  · intro slice position value next
    exact Decoder.natural_eq_ok_iff field _ value next
  · intro value value' positive small positive' small' starts
    exact eq_of_naturalBits_prefix ⟨positive, small⟩ ⟨positive', small'⟩ starts
      (List.prefix_refl _)
  · intro slice position value next reads
    rcases (Decoder.natural_eq_ok_iff field _ value next).mp reads with
      ⟨⟨positive, small⟩, starts, rfl⟩
    obtain ⟨written, appends, written_eq⟩ :=
      BitString.appendNatural_of_inRange positive small field .empty
    refine ⟨written, appends, ?_⟩
    change _ = List.take (position + naturalLength value - position) _
    rw [written_eq, BitString.toList_empty, List.nil_append, Nat.add_sub_cancel_left,
      ← length_naturalBits]
    exact List.prefix_iff_eq_take.mp starts

/-- Four has the code `110000`. Here it is written, read inside a byte and written again. -/
theorem natural_canonical_four :
    (0 < 4 ∧ 4 ≤ maxNatural ∧
      ∃ result, BitString.empty.appendNatural 4 ⟨.program, "number"⟩ = .ok result ∧
        Encoder.natural 4 ⟨.program, "number"⟩ .empty = .ok () result ∧
        result.toList = BitString.empty.toList ++ naturalBits 4 ∧
        result.length = BitString.empty.length + naturalLength 4) ∧
    Encoder.natural 0 ⟨.program, "number"⟩ .empty =
      .error (.naturalOverflow ⟨.program, "number"⟩) .empty ∧
    Decoder.natural ⟨.program, "number"⟩ ⟨.ofBytes ⟨#[0x60]⟩, 1⟩ =
        .ok 4 ⟨.ofBytes ⟨#[0x60]⟩, 7⟩ ∧
      ∃ written, BitString.empty.appendNatural 4 ⟨.program, "number"⟩ = .ok written ∧
        written.toList = ((BitString.ofBytes ⟨#[0x60]⟩).toList.drop 1).take (7 - 1) := by
  have reads : Decoder.natural ⟨.program, "number"⟩ ⟨.ofBytes ⟨#[0x60]⟩, 1⟩ =
      .ok 4 ⟨.ofBytes ⟨#[0x60]⟩, 7⟩ := by
    rfl
  obtain ⟨writes, refuses, -, -, rewrites⟩ := natural_canonical ⟨.program, "number"⟩
  exact ⟨⟨by decide, by decide, writes 4 .empty (by decide) (by decide)⟩,
    (refuses 0 .empty (.inl rfl)).2, reads, rewrites ⟨#[0x60]⟩ 1 4 _ reads⟩

end Simplicity
