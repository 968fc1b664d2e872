import Mathlib.Data.List.Forall2
import Simplicity.Proofs.Expression.Encoding
import Simplicity.Proofs.Stream.Octets

/-!
# Reading what was written

A script is any sequence of items, each written where the one before it ends, wherever in a byte that is.
A query asks for an item of a given kind and size, and bytes can be asked for in two ways. The queries
that match a script give back its items, since each of them recognizes the writing of the item that it
asks for, and the writings stand one after another.

Nothing else is in the bytes but padding. Reading does not look at it, so setting some of its bits changes
nothing until the stream is declared complete, and then it is refused.
-/

namespace Simplicity

/-- What is written in one go. -/
inductive Item where
  | bit (set : Bool)
  /-- The low bits of a number. -/
  | bits (value count : Nat)
  | bytes (listed : List UInt8)
  | string (listed : BitString)
  /-- A number in the positive-integer code. -/
  | natural (value : Nat) (field : Field)

namespace Item

/-- Appends an item. -/
def write (out : BitString) : Item → Except StreamError BitString
  | .bit set => .ok (out.push set)
  | .bits value count => .ok (out.appendBits value count)
  | .bytes listed => .ok (out.appendBytes listed)
  | .string listed => .ok (out ++ listed)
  | .natural value field => out.appendNatural value field

/-- Writes one item after another. -/
def writeAll (items : List Item) : Except StreamError BitString :=
  items.foldlM write .empty

/-- The positive-integer code covers the item if it is written in that code. -/
def Writable : Item → Prop
  | .natural value _ => 0 < value ∧ value ≤ maxNatural
  | _ => True

/-- The bits that an item is written as. -/
def written : Item → List Bool
  | .bit set => [set]
  | .bits value count => BitString.lowBits value count
  | .bytes listed => listed.flatMap fun byte => BitString.lowBits byte.toNat 8
  | .string listed => listed.toList
  | .natural value _ => naturalBits value

/-- The item as it is read: of a number of given width, only the low bits were written. -/
def reduced : Item → Item
  | .bits value count => .bits (value % 2 ^ count) count
  | item => item

theorem write_eq_ok_iff (out : BitString) (item : Item) (result : BitString) :
    item.write out = .ok result ↔
      item.Writable ∧ result.toList = out.toList ++ item.written := by
  have appends : ∀ {appended : BitString}, appended.toList = out.toList ++ item.written →
      ((.ok appended : Except StreamError BitString) = .ok result ↔
        True ∧ result.toList = out.toList ++ item.written) := by
    intro appended appended_eq
    rw [Except.ok.injEq, true_and, ← appended_eq, BitString.toList_inj, eq_comm]
  cases item with
  | bit set => exact appends (BitString.toList_push out set)
  | bits value count => exact appends (BitString.toList_appendBits out value count)
  | bytes listed => exact appends (BitString.toList_appendBytes out listed)
  | string listed => exact appends (BitString.toList_append out listed)
  | natural value field => exact BitString.appendNatural_eq_ok_iff out value field result

theorem exists_writeAll {items : List Item} (writable : ∀ item ∈ items, item.Writable) :
    ∃ out, writeAll items = .ok out ∧ out.toList = items.flatMap written := by
  refine ⟨.ofBits (items.flatMap written), ?_, BitString.toList_ofBits _⟩
  rw [writeAll, BitString.foldlM_eq_ok_iff write_eq_ok_iff]
  exact ⟨writable, BitString.toList_ofBits _⟩

end Item

/-- What is read in one go, and the field that it is read for. -/
inductive Query where
  | bit (field : Field)
  | bits (count : Nat) (field : Field)
  /-- Bytes, eight bits at a time. -/
  | octets (count : Nat) (field : Field)
  /-- Bytes, all at once. -/
  | array (count : Nat) (field : Field)
  /-- Bits, one at a time. -/
  | string (count : Nat) (field : Field)
  | natural (field : Field)

/-- Reads bits, one after another. -/
def Decoder.string (field : Field) : (count : Nat) → Decoder StreamError (List Bool)
  | 0 => return []
  | count + 1 => do
      let first ← bit field
      let rest ← string field count
      return first :: rest

namespace Query

/-- Reads the item that a query asks for. -/
def read : Query → Decoder StreamError Item
  | .bit field => return .bit (← Decoder.bit field)
  | .bits count field => return .bits (← Decoder.bits count field) count
  | .octets count field => return .bytes ((← Decoder.octets field count).map UInt8.ofNat)
  | .array count field => return .bytes (← Decoder.bytes count field).toList
  | .string count field => return .string (.ofBits (← Decoder.string field count))
  | .natural field => return .natural (← Decoder.natural field) field

/-- Reads one item after another. -/
def readAll : List Query → Decoder StreamError (List Item)
  | [] => return []
  | query :: rest => do
      let item ← query.read
      let items ← readAll rest
      return item :: items

/-- The query asks for an item of this kind and size. -/
inductive Matches : Query → Item → Prop where
  | bit (set : Bool) (field : Field) : Matches (.bit field) (.bit set)
  | bits (value count : Nat) (field : Field) : Matches (.bits count field) (.bits value count)
  | octets (listed : List UInt8) (field : Field) : Matches (.octets listed.length field) (.bytes listed)
  | array (listed : List UInt8) (field : Field) : Matches (.array listed.length field) (.bytes listed)
  | string (listed : BitString) (field : Field) : Matches (.string listed.length field) (.string listed)
  | natural (value : Nat) (field : Field) : Matches (.natural field) (.natural value field)

end Query

namespace Decoder

variable {cursor : Cursor}

theorem string_recognizes (field : Field) (count : Nat) :
    (string field count).Recognizes fun found written => found.length = count ∧ written = found := by
  induction count with
  | zero =>
      apply (Recognizes.pure []).congr
      intro found written
      rw [List.length_eq_zero_iff]
      constructor
      · rintro ⟨rfl, rfl⟩
        exact ⟨rfl, rfl⟩
      · rintro ⟨rfl, rfl⟩
        exact ⟨rfl, rfl⟩
  | succ count ih =>
      apply ((bit_recognizes field).bind fun first _ => ih.bind fun rest _ =>
        Recognizes.pure (first :: rest)).congr
      intro found written
      constructor
      · rintro ⟨first, _, _, rfl, ⟨rest, _, _, ⟨rfl, rfl⟩, ⟨rfl, rfl⟩, rfl⟩, rfl⟩
        exact ⟨rfl, by simp⟩
      · rintro ⟨counted, rfl⟩
        rcases List.exists_cons_of_length_eq_add_one counted with ⟨first, rest, rfl⟩
        exact ⟨first, [first], rest, rfl, ⟨rest, rest, [], ⟨Nat.succ.inj counted, rfl⟩, ⟨rfl, rfl⟩,
          (List.append_nil rest).symm⟩, rfl⟩

/-- Bytes are read back where they are written. No bytes at all are written anywhere, and read anywhere
but past the end. -/
theorem exists_bytes_of_written (within : cursor.position ≤ cursor.source.length)
    {listed : List UInt8}
    (starts : (listed.flatMap fun byte => BitString.lowBits byte.toNat 8) <+: cursor.rest)
    (field : Field) :
    ∃ found : Vector UInt8 listed.length, found.toList = listed ∧
      bytes listed.length field cursor = .ok found (cursor.advance (8 * listed.length)) := by
  rcases Nat.eq_zero_or_pos listed.length with none | positive
  · obtain rfl := List.length_eq_zero_iff.mp none
    exact ⟨#v[], rfl, bytes_of_le within field⟩
  · refine ⟨⟨listed.toArray, rfl⟩, rfl, ?_⟩
    rw [bytes_recognizes positive]
    refine ⟨_, rfl, starts, ?_⟩
    rw [BitString.length_flatMap_lowBits]
    rfl

end Decoder

namespace Query

variable {cursor : Cursor}

/-- A query that matches an item reads it where it is written. -/
theorem read_of_written {query : Query} {item : Item} (isMatch : query.Matches item)
    (writable : item.Writable) (within : cursor.position ≤ cursor.source.length)
    (starts : item.written <+: cursor.rest) :
    query.read cursor = .ok item.reduced (cursor.advance item.written.length) := by
  cases isMatch with
  | bit set field =>
      have reads := (Decoder.bit_recognizes field cursor set _).mpr ⟨_, rfl, starts, rfl⟩
      exact bind_of_ok reads
  | bits value count field =>
      have small : value % 2 ^ count < 2 ^ count := Nat.mod_lt _ (Nat.two_pow_pos count)
      have reads := (Decoder.bits_recognizes count field cursor (value % 2 ^ count) _).mpr
        ⟨_, ⟨small, (BitString.lowBits_mod_two_pow value count).symm⟩, starts, rfl⟩
      exact bind_of_ok reads
  | octets listed field =>
      obtain ⟨found, found_eq, reads⟩ := Decoder.exists_bytes_of_written within starts field
      rw [Item.written, BitString.length_flatMap_lowBits]
      refine (bind_of_ok (Decoder.octets_of_bytes reads)).trans ?_
      simp [found_eq, Function.comp_def, Item.reduced, pure, EStateM.pure]
  | array listed field =>
      obtain ⟨found, found_eq, reads⟩ := Decoder.exists_bytes_of_written within starts field
      rw [Item.written, BitString.length_flatMap_lowBits]
      refine (bind_of_ok reads).trans ?_
      rw [found_eq]
      rfl
  | string listed field =>
      have reads := (Decoder.string_recognizes field listed.length cursor listed.toList _).mpr
        ⟨_, ⟨BitString.length_toList listed, rfl⟩, starts, rfl⟩
      refine (bind_of_ok reads).trans ?_
      rw [BitString.eq_of_toList_eq (BitString.toList_ofBits listed.toList)]
      rfl
  | natural value field =>
      have reads := (Decoder.natural_recognizes field cursor value _).mpr
        ⟨_, ⟨writable, rfl⟩, starts, rfl⟩
      exact bind_of_ok reads

/-- Queries that match a script read it where it is written. -/
theorem readAll_of_written {queries : List Query} {items : List Item}
    (matched : List.Forall₂ Matches queries items) (writable : ∀ item ∈ items, item.Writable)
    (within : cursor.position ≤ cursor.source.length)
    (starts : items.flatMap Item.written <+: cursor.rest) :
    readAll queries cursor =
      .ok (items.map Item.reduced) (cursor.advance (items.flatMap Item.written).length) := by
  induction matched generalizing cursor with
  | nil => rfl
  | @cons query item queries items isMatch matched ih =>
      rw [List.forall_mem_cons] at writable
      obtain ⟨behind, split⟩ := starts
      rw [List.flatMap_cons, List.append_assoc] at split
      have first : item.written <+: cursor.rest := ⟨_, split⟩
      have rest : items.flatMap Item.written <+: (cursor.advance item.written.length).rest := by
        rw [Cursor.rest_advance, ← split, List.drop_left]
        exact List.prefix_append _ _
      have fits := first.length_le
      rw [Cursor.length_rest, Cursor.remaining] at fits
      have inside : (cursor.advance item.written.length).position ≤
          (cursor.advance item.written.length).source.length := by
        change cursor.position + item.written.length ≤ cursor.source.length
        omega
      rw [List.flatMap_cons, List.length_append, ← Cursor.advance_advance]
      rw [readAll, bind_of_ok (read_of_written isMatch writable.1 within first),
        bind_of_ok (ih writable.2 inside rest)]
      rfl

/-- Only the written bits are read, whatever comes after them in the bytes. -/
theorem readAll_ofBytes {queries : List Query} {items : List Item}
    (matched : List.Forall₂ Matches queries items) (writable : ∀ item ∈ items, item.Writable)
    {out : BitString} (out_eq : out.toList = items.flatMap Item.written) {bytes : ByteArray}
    (starts : out.toList <+: (BitString.ofBytes bytes).toList) :
    readAll queries (.ofBytes bytes) =
      .ok (items.map Item.reduced) ⟨.ofBytes bytes, out.length⟩ := by
  rw [← BitString.length_toList]
  rw [out_eq] at starts ⊢
  have reads := @readAll_of_written (.ofBytes bytes) _ _ matched writable (Nat.zero_le _) starts
  rw [reads, Cursor.advance]
  exact congrArg _ (congrArg _ (Nat.zero_add _))

end Query

/-- The bytes with the bit at a position set. -/
def setBit (bytes : ByteArray) (place : Nat) : ByteArray :=
  if inside : place / 8 < bytes.size then
    bytes.set (place / 8) (bytes[place / 8] ||| bitMask (place % 8)) inside
  else
    bytes

/-- The bytes with the bits at some positions set. -/
def setBits (bytes : ByteArray) (places : List Nat) : ByteArray :=
  places.foldl setBit bytes

theorem size_setBit (bytes : ByteArray) (place : Nat) : (setBit bytes place).size = bytes.size := by
  rw [setBit]
  split
  · exact size_set _ _ _ _
  · rfl

theorem bitAt_setBit {bytes : ByteArray} {place : Nat} (inside : place < 8 * bytes.size)
    (index : Nat) :
    bitAt (setBit bytes place) index = (bitAt bytes index || decide (index = place)) := by
  have reached : place / 8 < bytes.size := by omega
  rw [setBit, dif_pos reached, bitAt_set]
  split
  case isTrue here =>
    have same : bitAt bytes index = (bytes[place / 8]).toNat.testBit (7 - index % 8) := by
      simp only [bitAt, here, reached, dif_pos]
    rw [UInt8.toNat_or, Nat.testBit_or, testBit_bitMask, same]
    congr 1
    apply decide_eq_decide.mpr
    omega
  case isFalse elsewhere =>
    have other : index ≠ place := by
      rintro rfl
      exact elsewhere rfl
    rw [decide_eq_false other, Bool.or_false]

theorem size_setBits (bytes : ByteArray) (places : List Nat) :
    (setBits bytes places).size = bytes.size := by
  induction places generalizing bytes with
  | nil => rfl
  | cons place places ih => exact (ih (setBit bytes place)).trans (size_setBit bytes place)

theorem bitAt_setBits {bytes : ByteArray} {places : List Nat}
    (inside : ∀ place ∈ places, place < 8 * bytes.size) (index : Nat) :
    bitAt (setBits bytes places) index = (bitAt bytes index || decide (index ∈ places)) := by
  induction places generalizing bytes with
  | nil => simp [setBits]
  | cons place places ih =>
      rw [List.forall_mem_cons] at inside
      have later : ∀ other ∈ places, other < 8 * (setBit bytes place).size := by
        rw [size_setBit]
        exact inside.2
      change bitAt (setBits (setBit bytes place) places) index = _
      rw [ih later, bitAt_setBit inside.1, Bool.or_assoc]
      simp only [List.mem_cons, Bool.decide_or]

/-- Setting bits of the padding leaves the bits of the string as they are. -/
theorem BitString.toList_prefix_setBits {out : BitString} {places : List Nat}
    (inPadding : ∀ place ∈ places, out.length ≤ place ∧ place < 8 * out.bytes.size) :
    out.toList <+: (ofBytes (setBits out.bytes places)).toList := by
  have packed := out.packed.size_eq
  apply toList_prefix_ofBytes
  · rw [size_setBits]
    omega
  · intro index inside
    have unset : index ∉ places := by
      intro member
      have past := (inPadding index member).1
      omega
    rw [bitAt_setBits fun place member => (inPadding place member).2, decide_eq_false unset,
      Bool.or_false]

namespace Cursor

/-- Behind the bits of a string, there is nothing in its bytes but zeros. -/
theorem finish_bytes (out : BitString) (stream : Stream) :
    finish ⟨.ofBytes out.bytes, out.length⟩ stream = .ok () := by
  have packed := out.packed.size_eq
  have rest_eq : rest ⟨.ofBytes out.bytes, out.length⟩ =
      List.replicate (8 * out.bytes.size - out.length) false := by
    rw [rest, BitString.toList_ofBytes_bytes, ← BitString.length_toList, List.drop_left]
  rw [finish_eq_ok_iff, rest_eq, List.length_replicate]
  exact ⟨by omega, fun bit member => List.eq_of_mem_replicate member⟩

theorem finish_of_set {cursor : Cursor} {place : Nat} (short : cursor.remaining < 8)
    (reached : cursor.position ≤ place) (isSet : bitAt cursor.source.bytes place = true)
    (stream : Stream) : cursor.finish stream = .error (.illegalPadding stream cursor.position) := by
  have inside : place < cursor.source.length := by
    by_contra past
    rw [cursor.source.packed.padding place (by omega)] at isSet
    cases isSet
  have found : ((List.range cursor.remaining).any fun offset =>
      bitAt cursor.source.bytes (cursor.position + offset)) = true := by
    rw [List.any_eq_true]
    refine ⟨place - cursor.position, List.mem_range.mpr ?_, ?_⟩
    · rw [remaining]
      omega
    · rwa [Nat.add_sub_cancel' reached]
  rw [finish, if_neg (by omega), if_pos found]

theorem finish_setBits {out : BitString} {places : List Nat} (nonempty : places ≠ [])
    (inPadding : ∀ place ∈ places, out.length ≤ place ∧ place < 8 * out.bytes.size)
    (stream : Stream) :
    finish ⟨.ofBytes (setBits out.bytes places), out.length⟩ stream =
      .error (.illegalPadding stream out.length) := by
  have packed := out.packed.size_eq
  obtain ⟨place, member⟩ := List.exists_mem_of_ne_nil places nonempty
  refine @finish_of_set _ place ?_ (inPadding place member).1 ?_ stream
  · change 8 * (setBits out.bytes places).size - out.length < 8
    rw [size_setBits]
    omega
  · change bitAt (setBits out.bytes places) place = true
    rw [bitAt_setBits fun place member => (inPadding place member).2, decide_eq_true member,
      Bool.or_true]

end Cursor

/-- Every script that stays in the range of the positive-integer code is written, item after item, into
as many bytes as its bits take. The matching queries give back its items, of a number of given width the
low bits, and stop behind the last of them, where the stream is complete. With some padding bits set they
read the same, but then the stream is refused. -/
theorem readAll_writeAll (stream : Stream) {items : List Item}
    (writable : ∀ item ∈ items, item.Writable) :
    ∃ out, Item.writeAll items = .ok out ∧ out.toList = items.flatMap Item.written ∧
      out.bytes.size = (out.length + 7) / 8 ∧
      ∀ queries, List.Forall₂ Query.Matches queries items →
        (Query.readAll queries (.ofBytes out.bytes) =
            .ok (items.map Item.reduced) ⟨.ofBytes out.bytes, out.length⟩ ∧
          Cursor.finish ⟨.ofBytes out.bytes, out.length⟩ stream = .ok ()) ∧
        ∀ places : List Nat, places ≠ [] →
          (∀ place ∈ places, out.length ≤ place ∧ place < 8 * out.bytes.size) →
          let altered := setBits out.bytes places
          Query.readAll queries (.ofBytes altered) =
              .ok (items.map Item.reduced) ⟨.ofBytes altered, out.length⟩ ∧
            Cursor.finish ⟨.ofBytes altered, out.length⟩ stream =
              .error (.illegalPadding stream out.length) := by
  obtain ⟨out, writes, out_eq⟩ := Item.exists_writeAll writable
  refine ⟨out, writes, out_eq, out.packed.size_eq, fun queries matched => ⟨⟨?_, ?_⟩, ?_⟩⟩
  · have starts : out.toList <+: (BitString.ofBytes out.bytes).toList :=
      ⟨_, (BitString.toList_ofBytes_bytes out).symm⟩
    exact Query.readAll_ofBytes matched writable out_eq starts
  · exact Cursor.finish_bytes out stream
  · intro places nonempty inPadding altered
    have starts := BitString.toList_prefix_setBits inPadding
    exact ⟨Query.readAll_ofBytes matched writable out_eq starts,
      Cursor.finish_setBits nonempty inPadding stream⟩

/-- Items of every kind, all but the first starting inside a byte. They leave two bits of padding, of which
the last is then set. -/
theorem readAll_writeAll_unaligned :
    let items : List Item := [.bit true, .bits 45 5, .bytes [0xa5, 0x3c], .natural 4 .nodeCode,
      .string (.ofBits [true, true])]
    let queries : List Query := [.bit .nodeCode, .bits 5 .nodeCode, .array 2 .nodeCode,
      .natural .nodeCode, .string 2 .nodeCode]
    let found : List Item := [.bit true, .bits 13 5, .bytes [0xa5, 0x3c], .natural 4 .nodeCode,
      .string (.ofBits [true, true])]
    let bytes : ByteArray := ⟨#[0xb6, 0x94, 0xf3, 0x0c]⟩
    let altered : ByteArray := ⟨#[0xb6, 0x94, 0xf3, 0x0d]⟩
    (∃ out, Item.writeAll items = .ok out ∧ out.bytes = bytes ∧ out.length = 30) ∧
      Query.readAll queries (.ofBytes bytes) = .ok found ⟨.ofBytes bytes, 30⟩ ∧
      Cursor.finish ⟨.ofBytes bytes, 30⟩ .program = .ok () ∧
      Query.readAll queries (.ofBytes altered) = .ok found ⟨.ofBytes altered, 30⟩ ∧
      Cursor.finish ⟨.ofBytes altered, 30⟩ .program = .error (.illegalPadding .program 30) := by
  intro items queries found bytes altered
  have writable : ∀ item ∈ items, item.Writable := by
    simp [items, Item.Writable, maxNatural]
  have matched : List.Forall₂ Query.Matches queries items :=
    .cons (.bit _ _) (.cons (.bits _ _ _) (.cons (.array [0xa5, 0x3c] _) (.cons (.natural _ _)
      (.cons (.string (.ofBits [true, true]) _) .nil))))
  have writes : (Item.writeAll items).map (fun out => (out.bytes, out.length)) = .ok (bytes, 30) := by
    decide +kernel
  obtain ⟨out, written, -, -, back⟩ := readAll_writeAll .program writable
  rw [written] at writes
  obtain ⟨bytes_eq, length_eq⟩ := Prod.mk.inj (Except.ok.inj writes)
  have altered_eq : setBits bytes [31] = altered := by decide
  obtain ⟨⟨reads, finishes⟩, padded⟩ := back queries matched
  rw [bytes_eq, length_eq] at reads finishes padded
  obtain ⟨reads', refuses⟩ := padded [31] (by simp) (by simp [bytes, ByteArray.size])
  rw [altered_eq] at reads' refuses
  exact ⟨⟨out, written, bytes_eq, length_eq⟩, reads, finishes, reads', refuses⟩

end Simplicity
