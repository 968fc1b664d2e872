import Mathlib.Data.List.Infix
import Simplicity.Proofs.Stream.Natural

/-!
# Decoders look no further than they get

A decoder that succeeds has moved on by some bits, and what comes after them plays no part in it. If the
bits are cut off behind the place where it has come to, it does the same on what is left; if they are cut
off before that place, it fails. `Decoder.Local` says so, together with what a failure of the second kind
looks like: nothing that the decoder checks on its way can fail before the bits end, because the same
check has passed when there were more of them.

The property is kept by sequences and choices of decoders, so for a large decoder it follows the steps of
its definition. What is written where is of no importance here.
-/

namespace Simplicity

theorem BitString.toList_ofBytes_append (head tail : ByteArray) :
    (ofBytes head).toList <+: (ofBytes (head ++ tail)).toList := by
  have longer : head.size ≤ (head ++ tail).size := by
    rw [ByteArray.size_append]
    omega
  apply toList_prefix_ofBytes (Nat.mul_le_mul_left 8 longer)
  intro index within
  change index < 8 * head.size at within
  change bitAt (head ++ tail) index = bitAt head index
  have inside : index / 8 < head.size := by omega
  rw [bitAt, bitAt, dif_pos inside, dif_pos (by omega), ByteArray.getElem_append_left inside]

namespace Decoder

variable {ε ε' α β : Type}

/-- What a decoder reads from some bits, it reads from their beginning too if it gets no further than
that; and if it does, it fails on the beginning, in the given way. -/
structure Local (decoder : Decoder ε α) (Ended : ε → Cursor → Prop) : Prop where
  moves {source : BitString} {position : Nat} {value : α} {next : Cursor} :
    decoder ⟨source, position⟩ = .ok value next → ∃ count, next = ⟨source, position + count⟩
  stays {full short : BitString} {position next : Nat} {value : α} :
    short.toList <+: full.toList → position ≤ short.length →
      decoder ⟨full, position⟩ = .ok value ⟨full, next⟩ → next ≤ short.length →
        decoder ⟨short, position⟩ = .ok value ⟨short, next⟩
  ends {full short : BitString} {position next : Nat} {value : α} :
    short.toList <+: full.toList → position ≤ short.length →
      decoder ⟨full, position⟩ = .ok value ⟨full, next⟩ → short.length < next →
        ∃ error stopped, decoder ⟨short, position⟩ = .error error ⟨short, stopped⟩ ∧
          Ended error ⟨short, stopped⟩

/-- A recognizer reads the same from more bits. -/
theorem Recognizes.extend {decoder : Decoder ε α} {Writes : α → List Bool → Prop}
    (recognizes : decoder.Recognizes Writes) {full short : BitString} {position : Nat} {value : α}
    {next : Cursor} (cut : short.toList <+: full.toList)
    (reads : decoder ⟨short, position⟩ = .ok value next) :
    decoder ⟨full, position⟩ = .ok value ⟨full, next.position⟩ := by
  rcases (recognizes _ _ _).mp reads with ⟨written, writes, starts, rfl⟩
  exact (recognizes _ _ _).mpr ⟨written, writes, starts.trans (cut.drop position), rfl⟩

/-- A recognizer does not go past the end. -/
theorem Recognizes.position_le {decoder : Decoder ε α} {Writes : α → List Bool → Prop}
    (recognizes : decoder.Recognizes Writes) {source : BitString} {position : Nat} {value : α}
    {next : Cursor} (within : position ≤ source.length)
    (reads : decoder ⟨source, position⟩ = .ok value next) : next.position ≤ source.length := by
  rcases (recognizes _ _ _).mp reads with ⟨written, -, starts, rfl⟩
  have longEnough := starts.length_le
  rw [Cursor.length_rest] at longEnough
  exact (Nat.le_sub_iff_add_le' within).mp longEnough

/-- Of a recognizer only has to be known how it fails. -/
theorem Recognizes.isLocal {decoder : Decoder ε α} {Writes : α → List Bool → Prop}
    (recognizes : decoder.Recognizes Writes) {Ended : ε → Cursor → Prop}
    (ends : ∀ {full short : BitString} {position next : Nat} {value : α}, position ≤ short.length →
      decoder ⟨full, position⟩ = .ok value ⟨full, next⟩ → short.length < next →
        ∃ error stopped, decoder ⟨short, position⟩ = .error error ⟨short, stopped⟩ ∧
          Ended error ⟨short, stopped⟩) : decoder.Local Ended where
  moves reads := by
    rcases (recognizes _ _ _).mp reads with ⟨written, -, -, rfl⟩
    exact ⟨written.length, rfl⟩
  stays cut within reads near := by
    rcases (recognizes _ _ _).mp reads with ⟨written, writes, starts, reached⟩
    cases reached
    refine (recognizes _ _ _).mpr ⟨written, writes, ?_, rfl⟩
    apply List.prefix_of_prefix_length_le starts (cut.drop _)
    rw [List.length_drop, BitString.length_toList]
    exact Nat.le_sub_of_add_le' near
  ends _ within reads far := ends within reads far

namespace Local

variable {decoder : Decoder ε α} {Ended Ended' : ε → Cursor → Prop}

/-- Another decoder that reads the same and only fails with other errors is local too. -/
theorem of_ok_iff {decoder' : Decoder ε' α} {EndedNew : ε' → Cursor → Prop}
    (isLocal : decoder.Local Ended)
    (ok_iff : ∀ {cursor value next},
      decoder' cursor = .ok value next ↔ decoder cursor = .ok value next)
    (fails_of : ∀ {cursor error stopped}, decoder cursor = .error error stopped →
      Ended error stopped → ∃ error', decoder' cursor = .error error' stopped ∧
        EndedNew error' stopped) : decoder'.Local EndedNew where
  moves reads := isLocal.moves (ok_iff.mp reads)
  stays cut within reads near := ok_iff.mpr (isLocal.stays cut within (ok_iff.mp reads) near)
  ends cut within reads far := by
    rcases isLocal.ends cut within (ok_iff.mp reads) far with ⟨error, stopped, fails, ended⟩
    rcases fails_of fails ended with ⟨error', fails', ended'⟩
    exact ⟨error', stopped, fails', ended'⟩

theorem mono (isLocal : decoder.Local Ended)
    (weaker : ∀ {error stopped}, Ended error stopped → Ended' error stopped) :
    decoder.Local Ended' :=
  isLocal.of_ok_iff Iff.rfl fun fails ended => ⟨_, fails, weaker ended⟩

theorem pure (result : α) : Local (Pure.pure result : Decoder ε α) Ended where
  moves reads := by
    cases reads
    exact ⟨0, rfl⟩
  stays _ _ reads _ := by
    cases reads
    rfl
  ends _ within reads far := by
    cases reads
    omega

theorem throw (error : ε) : Local (MonadExcept.throw error : Decoder ε α) Ended where
  moves reads := nomatch reads
  stays _ _ reads := nomatch reads
  ends _ _ reads := nomatch reads

theorem bind {following : α → Decoder ε β} (first : decoder.Local Ended)
    (second : ∀ value, (following value).Local Ended) : (decoder >>= following).Local Ended where
  moves reads := by
    rcases (Recognizes.bind_eq_ok_iff _ _ _ _ _).mp reads with ⟨value, middle, readsFirst, readsSecond⟩
    rcases first.moves readsFirst with ⟨count, rfl⟩
    rcases (second value).moves readsSecond with ⟨count', rfl⟩
    exact ⟨count + count', by rw [Nat.add_assoc]⟩
  stays cut within reads near := by
    rcases (Recognizes.bind_eq_ok_iff _ _ _ _ _).mp reads with ⟨value, middle, readsFirst, readsSecond⟩
    rcases first.moves readsFirst with ⟨count, rfl⟩
    rcases (second value).moves readsSecond with ⟨count', reached⟩
    cases reached
    rw [bind_of_ok (first.stays cut within readsFirst (by omega))]
    exact (second value).stays cut (by omega) readsSecond near
  ends {full short position next result} cut within reads far := by
    rcases (Recognizes.bind_eq_ok_iff _ _ _ _ _).mp reads with ⟨value, middle, readsFirst, readsSecond⟩
    rcases first.moves readsFirst with ⟨count, rfl⟩
    -- The bits end in the part of the first decoder or in that of the second.
    rcases Nat.lt_or_ge short.length (position + count) with inFirst | inSecond
    · rcases first.ends cut within readsFirst inFirst with ⟨error, stopped, fails, ended⟩
      exact ⟨error, stopped, bind_of_error fails, ended⟩
    · rw [bind_of_ok (first.stays cut within readsFirst inSecond)]
      exact (second value).ends cut inSecond readsSecond far

theorem ite {condition : Prop} [Decidable condition] {decoder' : Decoder ε α}
    (first : decoder.Local Ended) (second : decoder'.Local Ended) :
    Local (if condition then decoder else decoder') Ended := by
  split
  · exact first
  · exact second

theorem adaptExcept {EndedNew : ε' → Cursor → Prop} (rename : ε → ε')
    (isLocal : decoder.Local Ended)
    (renamed : ∀ {error stopped}, Ended error stopped → EndedNew (rename error) stopped) :
    Local (EStateM.adaptExcept rename decoder) EndedNew := by
  apply isLocal.of_ok_iff
  · intro cursor value next
    rw [EStateM.adaptExcept]
    cases decoder cursor <;> simp
  · intro cursor error stopped fails ended
    refine ⟨rename error, ?_, renamed ended⟩
    rw [EStateM.adaptExcept, fails]

end Local

/-- A single bit is missing only where all bits are consumed. -/
theorem bit_local (field : Field) : (bit field).Local fun error stopped =>
    error = .unexpectedEnd field ∧ stopped.position = stopped.source.length := by
  apply (bit_recognizes field).isLocal
  intro full short position next value within reads far
  rcases (bit_recognizes field _ _ _).mp reads with ⟨_, rfl, -, reached⟩
  cases reached
  have atEnd : short.length ≤ position := Nat.le_of_lt_succ far
  exact ⟨_, position, dif_neg (Nat.not_lt.mpr atEnd), rfl, Nat.le_antisymm within atEnd⟩

theorem bits_local (count : Nat) (field : Field) :
    (bits count field).Local fun error _ => error = .unexpectedEnd field := by
  apply (bits_recognizes count field).isLocal
  intro full short position next value within reads far
  rcases (bits_recognizes count field _ _ _).mp reads with ⟨_, ⟨-, rfl⟩, -, reached⟩
  cases reached
  rw [BitString.length_lowBits] at far
  exact ⟨_, position, if_pos (Nat.sub_lt_left_of_lt_add within far), rfl⟩

theorem bytes_local {count : Nat} (positive : 0 < count) (field : Field) :
    (bytes count field).Local fun error _ => error = .unexpectedEnd field := by
  apply (bytes_recognizes positive field).isLocal
  intro full short position next value within reads far
  rcases (bytes_recognizes positive field _ _ _).mp reads with ⟨_, rfl, -, reached⟩
  cases reached
  rw [BitString.length_flatMap_lowBits, Vector.length_toList] at far
  exact ⟨_, position, dif_neg (Nat.not_le.mpr far), rfl⟩

theorem ones_local (field : Field) (allowed : Nat) :
    (ones field allowed).Local fun error _ => error = .unexpectedEnd field := by
  have bit_ends : (bit field).Local fun error _ => error = .unexpectedEnd field :=
    (bit_local field).mono And.left
  induction allowed with
  | zero =>
      rw [ones]
      exact bit_ends.bind fun _ => .ite (.throw _) (.pure 0)
  | succ allowed ih =>
      rw [ones]
      exact bit_ends.bind fun _ => .ite (ih.bind fun count => .pure (count + 1)) (.pure 0)

theorem levels_local (field : Field) (count start : Nat) :
    (levels field count start).Local fun error _ => error = .unexpectedEnd field := by
  induction count generalizing start with
  | zero =>
      rw [levels]
      exact .pure start
  | succ count ih =>
      rw [levels]
      exact .ite (.throw _) ((bits_local start field).bind fun low => ih _)

theorem natural_local (field : Field) :
    (natural field).Local fun error _ => error = .unexpectedEnd field :=
  (ones_local field maxNesting).bind fun count => levels_local field count 1

end Decoder

end Simplicity
