import Simplicity.Expression.Basic
import Simplicity.Stream.Decoder
import Simplicity.Value

/-!
# Witnesses

A witness gives every witness node of an expression the compact encoding of a value. It travels
as the encodings one after another, padded with zeros to whole bytes. Nothing in that stream says
where one value ends: how many bits each takes follows from the target type of its node, so a
witness can only be read against an expression.
-/

namespace Simplicity

/-- The values of the witness nodes of an expression, in the order of the nodes. -/
structure Witness where
  values : List BitString
  deriving DecidableEq

def Field.witnessValue : Field :=
  ⟨.witness, "witness value"⟩

namespace Decoder

/-- Copies the compact encodings of values of some types, one after another. -/
def compactAll : List Ty → BitString → Decoder StreamError BitString
  | [], out => return out
  | ty :: pending, out =>
    if ty.width = 0 then
      compactAll pending out
    else
      match ty with
      | .unit => compactAll pending out
      | .sum left right => do
          if ← bit .witnessValue then
            compactAll (right :: pending) (out.push true)
          else
            compactAll (left :: pending) (out.push false)
      | .prod left right => compactAll (left :: right :: pending) out
termination_by pending => stackWeight (fun ty => 2 * sizeOf ty + 1) pending
decreasing_by
  all_goals simp only [stackWeight, Ty.sum.sizeOf_spec, Ty.prod.sizeOf_spec, Ty.unit.sizeOf_spec]
  all_goals omega

/-- Copies the compact encoding of a value of a type. -/
def compact (ty : Ty) : Decoder StreamError BitString :=
  compactAll [ty] .empty

/-- Copies the value of a witness node with the given target type. -/
def witnessValue (ty : Ty) : Decoder Error BitString := fun cursor =>
  match compact ty cursor with
  | .ok bits cursor => .ok bits cursor
  | .error _ cursor => .error (.witnessLength cursor.source.length cursor.position) cursor

end Decoder

namespace Witness

def size (witness : Witness) : Nat :=
  witness.values.length

def bitLength (witness : Witness) : Nat :=
  witness.values.foldl (fun total bits => total + bits.length) 0

/-- Fails unless there is one value for each witness node. -/
def checkCount (witness : Witness) (expression : Expression) : Except Error Unit :=
  let expected := expression.witnessNodes.length
  if witness.size = expected then .ok () else .error (.witnessCount expected witness.size)

def targetOf (expression : Expression) (node : Nat) : Except Error Ty :=
  match expression.arrow? node with
  | some arrow => .ok arrow.target
  | none => .error (.witnessType node)

/-- Encodes a value at the type of its witness node. -/
def encodeValue (expression : Expression) (node : Nat) (value : Value) :
    Except Error BitString := do
  let ty ← targetOf expression node
  (value.toBits ty).mapError fun _ => .witnessType node

/-- Decodes a value at the type of its witness node. -/
def decodeValue (expression : Expression) (node : Nat) (bits : BitString) :
    Except Error Value := do
  let ty ← targetOf expression node
  (Value.ofBits bits ty).mapError fun _ => .witnessType node

/-- The witness made of one value for each witness node. -/
def ofValues (expression : Expression) (values : List Value) : Except Error Witness := do
  let nodes := expression.witnessNodes
  if nodes.length ≠ values.length then
    throw (.witnessCount nodes.length values.length)
  let encodings ← (nodes.zip values).mapM fun (node, value) => encodeValue expression node value
  return ⟨encodings⟩

/-- The values of the witness nodes of an expression, which need not be the one that the witness
was made for. -/
def toValues (witness : Witness) (expression : Expression) : Except Error (List Value) := do
  witness.checkCount expression
  (expression.witnessNodes.zip witness.values).mapM fun (node, bits) =>
    decodeValue expression node bits

/-- Reads the values of witness nodes after those read so far, which are given last first. -/
def readValues (expression : Expression) :
    (nodes : List Nat) → List BitString → Decoder Error (List BitString)
  | [], done => return done.reverse
  | node :: rest, done => do
      match targetOf expression node with
      | .error error => throw error
      | .ok ty =>
          let bits ← Decoder.witnessValue ty
          readValues expression rest (bits :: done)

/-- The witness that bytes write for an expression. -/
def decode (bytes : ByteArray) (expression : Expression) (limits : Limits) :
    Except Error Witness := do
  limits.check
  if limits.maxWitnessBytes < bytes.size then
    throw (.inputTooLarge .witness bytes.size limits.maxWitnessBytes)
  match readValues expression expression.witnessNodes [] (.ofBytes bytes) with
  | .error error _ => throw error
  | .ok values cursor =>
      match cursor.finish .witness with
      | .error (.trailingBytes _ consumed _) =>
          throw (.witnessLength cursor.source.length consumed)
      | .error cause => throw (.malformed cause)
      | .ok () => return ⟨values⟩

/-- The bits of a witness, without padding. -/
def toBits (witness : Witness) : BitString :=
  witness.values.foldl BitString.append .empty

def encode (witness : Witness) : ByteArray :=
  witness.toBits.bytes

/-- Goes through nodes and values together, and gives every witness node the next value. -/
def spreadOver : List Node → List BitString → Array (Option BitString) → Array (Option BitString)
  | [], _, labels => labels
  | node :: rest, values, labels =>
      if node.isWitness then
        spreadOver rest values.tail (labels.push values.head?)
      else
        spreadOver rest values (labels.push none)

/-- The value of each node of an expression that has one. -/
def spread (witness : Witness) (expression : Expression) : Array (Option BitString) :=
  spreadOver expression.nodes.toList witness.values #[]

/-- The value of the witness node at an index, from the values of all nodes. -/
def valueAt (witness : Witness) (expression : Expression) (labels : Array (Option BitString))
    (index : Nat) : Except Error BitString :=
  match labels.getD index none with
  | some bits => .ok bits
  | none => .error (.witnessCount expression.witnessNodes.length witness.size)

end Witness

end Simplicity
