import Simplicity.BitString.Lemmas
import Simplicity.Expression.Encoding
import Simplicity.Proofs.Checked.Basic
import Simplicity.Witness

/-!
# Checked reading

A cursor may have been left anywhere, and what it is about to read may be anything. Every read asks
first whether enough bits are left, so no read goes past the last byte: not even that of a byte which
starts inside one stored byte and ends in the next. A number that is the width of the next one is at
most 30 when it shifts, and a distance back to a child is compared with the index before it is taken
from it. So reading never faults, wherever it starts.
-/

namespace Simplicity

namespace Checked

def bitAt (bytes : ByteArray) (index : Nat) : Checked Bool := do
  let byte ← readByte bytes (index / 8)
  let amount ← minus 7 (index % 8)
  return byte.toNat.testBit (← places amount 8)

theorem bitAt_eq {bytes : ByteArray} {index : Nat} (inside : index / 8 < bytes.size) :
    bitAt bytes index = pure (Simplicity.bitAt bytes index) := by
  have amount_lt : 7 - index % 8 < 8 := by omega
  rw [bitAt, readByte, read_eq_getElem inside, minus_eq (by omega)]
  simp only [pure_bind, places_eq amount_lt]
  rw [Simplicity.bitAt, dif_pos inside]
  rfl

def natAt (bits : BitString) (start : Nat) : Nat → Checked Nat
  | 0 => pure 0
  | count + 1 => do
      let high ← natAt bits start count
      let low ← bitAt bits.bytes (start + count)
      return 2 * high + low.toNat

theorem natAt_eq {bits : BitString} {start count : Nat} (inside : start + count ≤ bits.length) :
    natAt bits start count = pure (bits.natAt start count) := by
  induction count with
  | zero => rfl
  | succ count ih =>
      have inside' : (start + count) / 8 < bits.bytes.size := bits.div_lt_size (by omega)
      rw [natAt, ih (by omega)]
      simp only [pure_bind, bitAt_eq inside', BitString.natAt]

def byteAt (bits : BitString) (position : Nat) : Checked UInt8 := do
  let high ← readByte bits.bytes (position / 8)
  let offset ← places (position % 8) 8
  if offset = 0 then
    return high
  else
    let low ← readByte bits.bytes (position / 8 + 1)
    let rest ← minus 8 offset
    return (high <<< UInt8.ofNat offset) ||| (low >>> UInt8.ofNat (← places rest 8))

theorem byteAt_eq {bits : BitString} {position : Nat} (inside : position + 8 ≤ bits.length) :
    byteAt bits position = pure (bits.byteAt position inside) := by
  have first : position / 8 < bits.bytes.size := bits.div_lt_size (by omega)
  rw [byteAt, readByte, read_eq_getElem first, places_eq (by omega)]
  simp only [pure_bind]
  rw [BitString.byteAt]
  split
  case isTrue => rfl
  case isFalse unaligned =>
    -- The last of the eight bits is in the next byte, so there is a next byte.
    have second := bits.succ_div_lt_size inside unaligned
    have rest_lt : 8 - position % 8 < 8 := by omega
    rw [readByte, read_eq_getElem second, minus_eq (by omega)]
    simp only [pure_bind, places_eq rest_lt]
    rfl

/-- Sets the bit at an offset from the most significant one in the last byte. -/
def setLast (bytes : ByteArray) (offset : Nat) : Checked ByteArray := do
  let last ← minus bytes.size 1
  let byte ← readByte bytes last
  let mask := 0x80 >>> UInt8.ofNat (← places offset 8)
  return ⟨← write bytes.data last (byte ||| mask)⟩

/-- The bytes of a string to which a bit is appended. -/
def pushed (bits : BitString) (bit : Bool) : Checked ByteArray := do
  let offset := bits.length % 8
  let bytes := if offset = 0 then bits.bytes.push 0 else bits.bytes
  if bit then setLast bytes offset else return bytes

theorem setLast_eq {bytes : ByteArray} {last offset : Nat} (isLast : bytes.size = last + 1)
    (small : offset < 8) :
    setLast bytes offset =
      pure ⟨bytes.data.setIfInBounds last (bytes.data.getD last 0 ||| bitMask offset)⟩ := by
  have inside : last < bytes.data.size := by
    change last < bytes.size
    omega
  rw [setLast, minus_eq (by omega), isLast, Nat.add_sub_cancel, pure_bind, readByte,
    read_eq_getD inside 0]
  simp only [pure_bind, places_eq small, write_eq inside, ← BitString.bitMask_eq small]

theorem pushed_eq (bits : BitString) (bit : Bool) : pushed bits bit = pure (bits.push bit).bytes := by
  rcases bits with ⟨bytes, length, packed⟩
  have small : length % 8 < 8 := Nat.mod_lt _ (by decide)
  simp only [pushed, BitString.push]
  by_cases full : length % 8 = 0
  · simp only [full, if_true, dif_pos]
    cases bit with
    | false => rfl
    | true =>
        have isLast : (bytes.push 0).size = bytes.size + 1 := ByteArray.size_push
        rw [if_pos rfl, setLast_eq isLast (by decide)]
        congr 1
        apply ByteArray.ext
        rw [if_pos rfl, ByteArray.data_push, ByteArray.data_push]
        change (bytes.data.push 0).setIfInBounds bytes.data.size
          ((bytes.data.push 0).getD bytes.data.size 0 ||| bitMask 0) = _
        rw [Array.getD_eq_getD_getElem?, Array.getElem?_push_size, Array.setIfInBounds,
          dif_pos (by simp), Array.set_push, dif_neg (Nat.lt_irrefl _)]
        rfl
  · simp only [full, if_false]
    cases bit with
    | false => rfl
    | true =>
        have isLast : bytes.size = length / 8 + 1 := by
          rw [packed.size_eq]
          omega
        have inside : length / 8 < bytes.data.size := by
          change length / 8 < bytes.size
          omega
        rw [if_pos rfl, setLast_eq isLast small]
        congr 1
        apply ByteArray.ext
        rw [Array.getD_eq_getD_getElem?, Array.getElem?_eq_getElem inside, Array.setIfInBounds,
          dif_pos inside]
        rfl

def push (bits : BitString) (bit : Bool) : Checked BitString :=
  (pushed bits bit).andThen fun bytes ran =>
    pure ⟨bytes, bits.length + 1, by
      rw [pushed_eq] at ran
      cases ran
      rw [← BitString.length_push bits bit]
      exact (bits.push bit).packed⟩

theorem push_eq (bits : BitString) (bit : Bool) : push bits bit = pure (bits.push bit) := by
  rw [push, andThen_eq (pushed_eq bits bit)]
  congr 1
  exact BitString.ext_bytes (BitString.length_push bits bit).symm rfl

/-- One of the bits that are left is set. -/
def anyLeft (cursor : Cursor) : Checked Bool :=
  (List.range cursor.remaining).anyM fun offset =>
    bitAt cursor.source.bytes (cursor.position + offset)

theorem anyM_eq_any {α : Type} {p : α → Checked Bool} {q : α → Bool} {entries : List α}
    (plain : ∀ entry ∈ entries, p entry = pure (q entry)) :
    entries.anyM p = pure (entries.any q) := by
  induction entries with
  | nil => rfl
  | cons entry rest ih =>
      rw [List.forall_mem_cons] at plain
      rw [List.anyM, plain.1, pure_bind, List.any_cons]
      cases q entry with
      | true => rfl
      | false => exact ih plain.2

theorem anyLeft_eq (cursor : Cursor) :
    anyLeft cursor = pure ((List.range cursor.remaining).any fun offset =>
      Simplicity.bitAt cursor.source.bytes (cursor.position + offset)) := by
  apply anyM_eq_any
  intro offset member
  rw [List.mem_range, Cursor.remaining] at member
  exact bitAt_eq (cursor.source.div_lt_size (by omega))

def finishStream (cursor : Cursor) (stream : Stream) : Attempt StreamError Unit := do
  if 8 ≤ cursor.remaining then
    throw (.trailingBytes stream cursor.position cursor.remaining)
  else if ← anyLeft cursor then
    throw (.illegalPadding stream cursor.position)
  else
    return ()

theorem finishStream_eq (cursor : Cursor) (stream : Stream) :
    finishStream cursor stream = .of (cursor.finish stream) := by
  rw [finishStream, anyLeft_eq, Cursor.finish]
  split
  case isTrue => rfl
  case isFalse =>
    simp only [liftM_pure, pure_bind]
    split <;> rfl

end Checked

/-- A checked run of a decoder. -/
abbrev Reading (ε : Type) : Type → Type :=
  ExceptT ε (StateT Cursor Checked)

namespace Reading

variable {ε α β : Type}

/-- A plain run of a decoder, which does not fault. -/
def of (decoder : Decoder ε α) : Reading ε α :=
  ExceptT.mk fun cursor =>
    match decoder cursor with
    | .ok result cursor => pure (.ok result, cursor)
    | .error error cursor => pure (.error error, cursor)

@[simp]
theorem of_pure (result : α) : (of (pure result) : Reading ε α) = pure result :=
  rfl

@[simp]
theorem of_throw (error : ε) : (of (throw error) : Reading ε α) = throw error :=
  rfl

@[simp]
theorem of_bind (decoder : Decoder ε α) (next : α → Decoder ε β) :
    of (decoder >>= next) = of decoder >>= fun result => of (next result) := by
  funext cursor
  simp only [of, ExceptT.mk, bind, ExceptT.bind, StateT.bind, EStateM.bind]
  cases decoder cursor <;> rfl

@[simp]
theorem of_ite (condition : Prop) [Decidable condition] (first second : Decoder ε α) :
    of (if condition then first else second) = if condition then of first else of second := by
  split <;> rfl

/-! ### Fields -/

def bit (field : Field) : Reading StreamError Bool :=
  ExceptT.mk fun cursor => do
    if cursor.position < cursor.source.length then
      return (.ok (← Checked.bitAt cursor.source.bytes cursor.position), cursor.advance 1)
    else
      return (.error (.unexpectedEnd field), cursor)

def bits (count : Nat) (field : Field) : Reading StreamError Nat :=
  ExceptT.mk fun cursor => do
    if cursor.remaining < count then
      return (.error (.unexpectedEnd field), cursor)
    else
      return (.ok (← Checked.natAt cursor.source cursor.position count), cursor.advance count)

def bytes (count : Nat) (field : Field) : Reading StreamError (Vector UInt8 count) :=
  ExceptT.mk fun cursor => do
    if cursor.position + 8 * count ≤ cursor.source.length then
      let found ← Vector.ofFnM fun index =>
        Checked.byteAt cursor.source (cursor.position + 8 * index.val)
      return (.ok found, cursor.advance (8 * count))
    else
      return (.error (.unexpectedEnd field), cursor)

theorem bit_eq (field : Field) : bit field = of (Decoder.bit field) := by
  funext cursor
  simp only [bit, of, Decoder.bit, ExceptT.mk]
  split
  case isTrue inside =>
    have inByte := cursor.source.div_lt_size inside
    rw [Checked.bitAt_eq inByte, bitAt, dif_pos inByte]
    rfl
  case isFalse => rfl

theorem bits_eq (count : Nat) (field : Field) : bits count field = of (Decoder.bits count field) := by
  funext cursor
  simp only [bits, of, Decoder.bits, ExceptT.mk]
  split
  case isTrue => rfl
  case isFalse enough =>
    rcases Nat.eq_zero_or_pos count with rfl | positive
    · rfl
    · have inside : cursor.position + count ≤ cursor.source.length := by
        rw [Cursor.remaining] at enough
        omega
      rw [Checked.natAt_eq inside]
      rfl

theorem bytes_eq (count : Nat) (field : Field) :
    bytes count field = of (Decoder.bytes count field) := by
  funext cursor
  simp only [bytes, of, Decoder.bytes, ExceptT.mk]
  split
  case isTrue enough =>
    have found : ∀ index : Fin count, Checked.byteAt cursor.source (cursor.position + 8 * index.val) =
        pure (cursor.source.byteAt (cursor.position + 8 * index.val) (by omega)) :=
      fun index => Checked.byteAt_eq (by omega)
    simp only [found, Vector.ofFnM_pure, pure_bind]
  case isFalse => rfl

/-! ### Numbers -/

def ones (field : Field) : (allowed : Nat) → Reading StreamError Nat
  | 0 => do
      if ← bit field then throw (.naturalOverflow field) else return 0
  | allowed + 1 => do
      if ← bit field then return (← ones field allowed) + 1 else return 0

def levels (field : Field) : (count value : Nat) → Reading StreamError Nat
  | 0, value => return value
  | count + 1, value => do
      if 30 < value then
        throw (.naturalOverflow field)
      let low ← bits value field
      -- Numbers have 32 bits.
      levels field count (1 <<< (← Checked.places value 32) + low)

def natural (field : Field) : Reading StreamError Nat := do
  let count ← ones field maxNesting
  levels field count 1

theorem ones_eq (field : Field) (allowed : Nat) :
    ones field allowed = of (Decoder.ones field allowed) := by
  induction allowed with
  | zero => simp only [ones, Decoder.ones, bit_eq, of_bind, of_ite, of_throw, of_pure]
  | succ allowed ih => simp only [ones, Decoder.ones, bit_eq, ih, of_bind, of_ite, of_pure]

theorem levels_eq (field : Field) (count value : Nat) :
    levels field count value = of (Decoder.levels field count value) := by
  induction count generalizing value with
  | zero => rfl
  | succ count ih =>
      rw [levels, Decoder.levels]
      rcases Nat.lt_or_ge 30 value with large | small
      · simp only [if_pos large]
        rfl
      · have narrow : value < 32 := by omega
        simp only [Nat.not_lt.mpr small, if_false, pure_bind, bits_eq, ih, of_bind,
          Checked.places_eq narrow, liftM_pure]

theorem natural_eq (field : Field) : natural field = of (Decoder.natural field) := by
  simp only [natural, Decoder.natural, ones_eq, levels_eq, of_bind]

/-! ### Nodes -/

def orReject (reading : Reading StreamError α) : Reading Error α :=
  reading.adapt Error.malformed

theorem of_orReject (decoder : Decoder StreamError α) :
    of decoder.orReject = (of decoder).orReject := by
  funext cursor
  change _ = of decoder cursor >>= fun outcome =>
    pure (outcome.1.mapError Error.malformed, outcome.2)
  simp only [of, Decoder.orReject, EStateM.adaptExcept, ExceptT.mk]
  cases decoder cursor <;> rfl

def child (index : Nat) : Reading Error Nat := do
  let offset ← (natural .childOffset).orReject
  if index < offset then
    throw (.offsetOutOfRange index offset)
  Checked.minus index offset

def children (index : Nat) (node : Nat → Nat → Node) : Reading Error Node := do
  let left ← child index
  let right ← child index
  return node left right

def branching (index : Nat) : Reading Error Node := do
  match ← (bits 3 .nodeCode).orReject with
  | 0 => children index .comp
  | 1 => children index .case
  | 2 => children index .pair
  | 3 => children index .disconnect
  | 4 => return .injl (← child index)
  | 5 => return .injr (← child index)
  | 6 => return .take (← child index)
  | _ => return .drop (← child index)

def leaf (index : Nat) : Reading Error Node := do
  match ← (bits 2 .nodeCode).orReject with
  | 0 => return .iden
  | 1 => return .unit
  | 2 => throw (.reserved index .fail)
  | _ => throw (.reserved index .stop)

def node (index : Nat) : Reading Error Node := do
  if ← (bit .nodeCode).orReject then
    if ← (bit .nodeCode).orReject then
      throw (.reserved index .jet)
    else
      throw (.reserved index .word)
  else if ← (bit .nodeCode).orReject then
    if ← (bit .nodeCode).orReject then
      if ← (bit .nodeCode).orReject then
        return .witness
      else
        return .hidden (.ofBytes (← (bytes 32 .hiddenPayload).orReject))
    else
      leaf index
  else
    branching index

def nodes : (count : Nat) → Array Node → Reading Error (Array Node)
  | 0, done => return done
  | count + 1, done => do
      let next ← node done.size
      nodes count (done.push next)

def readNodes (maxNodes : Nat) : Reading Error (Array Node) := do
  let count ← (natural .nodeCount).orReject
  if maxNodes < count then
    throw (.tooManyNodes count maxNodes)
  nodes count #[]

theorem child_eq (index : Nat) : child index = of (Decoder.child index) := by
  rw [child, Decoder.child, of_bind, of_orReject, natural_eq]
  congr 1
  funext offset
  rcases Nat.lt_or_ge index offset with far | near
  · simp only [if_pos far]
    rfl
  · simp only [Nat.not_lt.mpr near, if_false, Checked.minus_eq near]
    rfl

theorem children_eq (index : Nat) (node : Nat → Nat → Node) :
    children index node = of (Decoder.children index node) := by
  simp only [children, Decoder.children, child_eq, of_bind, of_pure]

theorem branching_eq (index : Nat) : branching index = of (Decoder.branching index) := by
  rw [branching, Decoder.branching, of_bind, of_orReject, bits_eq]
  congr 1
  funext code
  split <;> simp only [children_eq, child_eq, of_bind, of_pure]

theorem leaf_eq (index : Nat) : leaf index = of (Decoder.leaf index) := by
  rw [leaf, Decoder.leaf, of_bind, of_orReject, bits_eq]
  congr 1
  funext code
  split <;> simp only [of_pure, of_throw]

theorem node_eq (index : Nat) : node index = of (Decoder.node index) := by
  simp only [node, Decoder.node, bit_eq, bytes_eq, leaf_eq, branching_eq, of_bind, of_ite, of_orReject,
    of_throw, of_pure]

theorem nodes_eq (count : Nat) (done : Array Node) :
    nodes count done = of (Decoder.nodes count done) := by
  induction count generalizing done with
  | zero => rfl
  | succ count ih => simp only [nodes, Decoder.nodes, node_eq, ih, of_bind]

theorem readNodes_eq (maxNodes : Nat) : readNodes maxNodes = of (Expression.readNodes maxNodes) := by
  simp only [readNodes, Expression.readNodes, natural_eq, nodes_eq, of_bind, of_orReject]
  congr 1
  funext count
  split <;> rfl

/-! ### Values -/

def compactAll : List Ty → BitString → Reading StreamError BitString
  | [], out => return out
  | ty :: pending, out =>
    if ty.width = 0 then
      compactAll pending out
    else
      match ty with
      | .unit => compactAll pending out
      | .sum left right => do
          if ← bit .witnessValue then
            compactAll (right :: pending) (← Checked.push out true)
          else
            compactAll (left :: pending) (← Checked.push out false)
      | .prod left right => compactAll (left :: right :: pending) out
termination_by pending => stackWeight (fun ty => 2 * sizeOf ty + 1) pending
decreasing_by
  all_goals simp only [stackWeight, Ty.sum.sizeOf_spec, Ty.prod.sizeOf_spec, Ty.unit.sizeOf_spec]
  all_goals omega

theorem compactAll_eq (pending : List Ty) (out : BitString) :
    compactAll pending out = of (Decoder.compactAll pending out) := by
  fun_induction Decoder.compactAll pending out with
  | case1 out =>
      rw [compactAll]
      rfl
  | case2 ty pending out narrow ih => cases ty <;> rw [compactAll, if_pos narrow, ih]
  | case3 pending out wide => exact absurd rfl wide
  | case4 pending out left right wide ihRight ihLeft =>
      rw [compactAll, if_neg wide]
      simp only [bit_eq, Checked.push_eq, liftM_pure, pure_bind, ihLeft, ihRight, of_bind, of_ite]
  | case5 pending out left right wide ih => rw [compactAll, if_neg wide, ih]

def compact (ty : Ty) : Reading StreamError BitString :=
  compactAll [ty] .empty

theorem compact_eq (ty : Ty) : compact ty = of (Decoder.compact ty) :=
  compactAll_eq [ty] .empty

def witnessValue (ty : Ty) : Reading Error BitString :=
  ExceptT.mk fun cursor => do
    match ← compact ty cursor with
    | (.ok bits, cursor) => return (.ok bits, cursor)
    | (.error _, cursor) =>
        return (.error (.witnessLength cursor.source.length cursor.position), cursor)

theorem witnessValue_eq (ty : Ty) : witnessValue ty = of (Decoder.witnessValue ty) := by
  funext cursor
  simp only [witnessValue, compact_eq, of, Decoder.witnessValue, ExceptT.mk]
  cases Decoder.compact ty cursor <;> rfl

def readValues (expression : Expression) :
    (nodes : List Nat) → List BitString → Reading Error (List BitString)
  | [], done => return done.reverse
  | node :: rest, done => do
      match Witness.targetOf expression node with
      | .error error => throw error
      | .ok ty =>
          let bits ← witnessValue ty
          readValues expression rest (bits :: done)

theorem readValues_eq (expression : Expression) (nodes : List Nat) (done : List BitString) :
    readValues expression nodes done = of (Witness.readValues expression nodes done) := by
  induction nodes generalizing done with
  | nil => rfl
  | cons node rest ih =>
      rw [readValues, Witness.readValues]
      cases Witness.targetOf expression node with
      | error error => rfl
      | ok ty => simp only [witnessValue_eq, ih, of_bind]

end Reading

end Simplicity
