import Simplicity.Expression.Basic
import Simplicity.Stream.Natural

/-!
# Programs as bits

A program starts with the number of its nodes in the positive-integer code. The nodes follow in
order, each as the code of its combinator, the root of a hidden branch if it is one, and the
distances back to its children in the positive-integer code. Less than a byte of zeros pads the
whole.

| code              | combinator                         |
|-------------------|------------------------------------|
| `00000`           | composition                        |
| `00001`           | choice, and both kinds of assertion|
| `00010`, `00011`  | pair, disconnect                   |
| `00100`, `00101`  | left and right injection           |
| `00110`, `00111`  | take, drop                         |
| `01000`, `01001`  | identity, unit                     |
| `0110`, `0111`    | hidden branch, witness             |

The remaining codes `01010`, `01011`, `10` and `11` are reserved.
-/

namespace Simplicity

namespace Combinator

/-- The code of a combinator, and how many bits it takes. -/
def code {ρ : Type} : Combinator ρ → Nat × Nat
  | .comp _ _ => (0b00000, 5)
  | .case _ _ | .assertl _ _ | .assertr _ _ => (0b00001, 5)
  | .pair _ _ => (0b00010, 5)
  | .disconnect _ _ => (0b00011, 5)
  | .injl _ => (0b00100, 5)
  | .injr _ => (0b00101, 5)
  | .take _ => (0b00110, 5)
  | .drop _ => (0b00111, 5)
  | .iden => (0b01000, 5)
  | .unit => (0b01001, 5)
  | .hidden _ => (0b0110, 4)
  | .witness => (0b0111, 4)

/-- The bytes that follow the code of a combinator. -/
def payload {ρ : Type} : Combinator ρ → List UInt8
  | .hidden root => root.toBytes.toList
  | _ => []

end Combinator

namespace Field

def nodeCount : Field :=
  ⟨.program, "node count"⟩

def nodeCode : Field :=
  ⟨.program, "node code"⟩

/-- The distance back to a child. -/
def childOffset : Field :=
  ⟨.program, "child offset"⟩

def hiddenPayload : Field :=
  ⟨.program, "hidden payload"⟩

end Field

namespace BitString

/-- Appends the node at an index. -/
def appendNode (out : BitString) (node : Node) (index : Nat) : Except StreamError BitString :=
  let (code, width) := node.code
  let out := (out.appendBits code width).appendBytes node.payload
  node.children.foldlM (fun out child => out.appendNatural (index - child) .childOffset) out

end BitString

namespace Expression

/-- The bits of a program, without padding. -/
def toBits (expression : Expression) : Except StreamError BitString := do
  let out ← BitString.empty.appendNatural expression.size .nodeCount
  expression.nodes.toList.zipIdx.foldlM (fun out (node, index) => out.appendNode node index) out

def encode (expression : Expression) : Except StreamError ByteArray :=
  expression.toBits.map (·.bytes)

end Expression

namespace Decoder

variable {α : Type}

/-- Lets the failures of a stream reject the program. -/
def orReject (decoder : Decoder StreamError α) : Decoder Error α :=
  EStateM.adaptExcept Error.malformed decoder

/-- Reads the distance back from the node at an index to a child. -/
def child (index : Nat) : Decoder Error Nat := do
  let offset ← (natural .childOffset).orReject
  if index < offset then
    throw (.offsetOutOfRange index offset)
  return index - offset

/-- Reads the two children of the node at an index. -/
def children (index : Nat) (node : Nat → Nat → Node) : Decoder Error Node := do
  let left ← child index
  let right ← child index
  return node left right

/-- Reads a combinator with children, after the bits `00`. -/
def branching (index : Nat) : Decoder Error Node := do
  match ← (bits 3 .nodeCode).orReject with
  | 0 => children index .comp
  | 1 => children index .case
  | 2 => children index .pair
  | 3 => children index .disconnect
  | 4 => return .injl (← child index)
  | 5 => return .injr (← child index)
  | 6 => return .take (← child index)
  | _ => return .drop (← child index)

/-- Reads a combinator without children or payload, after the bits `010`. -/
def leaf (index : Nat) : Decoder Error Node := do
  match ← (bits 2 .nodeCode).orReject with
  | 0 => return .iden
  | 1 => return .unit
  | 2 => throw (.reserved index .fail)
  | _ => throw (.reserved index .stop)

/-- Reads the node at an index. -/
def node (index : Nat) : Decoder Error Node := do
  if ← (bit .nodeCode).orReject then
    if ← (bit .nodeCode).orReject then
      throw (.reserved index .jet)
    else
      throw (.reserved index .word)
  else if ← (bit .nodeCode).orReject then
    if ← (bit .nodeCode).orReject then
      if ← (bit .nodeCode).orReject then
        return .witness
      else
        return .hidden (.ofBytes (← (bytes 32 .hiddenPayload).orReject))
    else
      leaf index
  else
    branching index

/-- Reads a number of nodes after those read so far. -/
def nodes : (count : Nat) → Array Node → Decoder Error (Array Node)
  | 0, done => return done
  | count + 1, done => do
      let next ← node done.size
      nodes count (done.push next)

end Decoder

namespace Expression

/-- Reads the nodes of a program, which may not declare more than a number of them. -/
def readNodes (maxNodes : Nat) : Decoder Error (Array Node) := do
  let count ← (Decoder.natural .nodeCount).orReject
  if maxNodes < count then
    throw (.tooManyNodes count maxNodes)
  Decoder.nodes count #[]

/-- The expression that the bytes of a program write. -/
def decode (bytes : ByteArray) (limits : Limits) : Except Error Expression := do
  limits.check
  if limits.maxProgramBytes < bytes.size then
    throw (.inputTooLarge .program bytes.size limits.maxProgramBytes)
  match readNodes limits.maxNodes (.ofBytes bytes) with
  | .error error _ => throw error
  | .ok nodes cursor =>
      (cursor.finish .program).mapError .malformed
      ofNodes nodes

end Expression

end Simplicity
