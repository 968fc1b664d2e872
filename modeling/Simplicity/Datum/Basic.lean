/-!
# Settings and reports as data

Limits are read from settings, and reports are kept in files, in a notation of named members and
lists. A `Datum` is such data after its notation has been parsed. Only natural numbers matter
here, so every other number is kept as it was written, to be refused.

A structure is written as a record, in which members that are not known are passed over, or as
the list of its members in order.
-/

namespace Simplicity

/-- Data of settings and reports. -/
inductive Datum where
  | null
  | bool (value : Bool)
  | natural (value : Nat)
  /-- A number that is not natural, or not written as one. -/
  | otherNumber (lexeme : String)
  | text (value : String)
  | list (items : List Datum)
  | record (members : List (String × Datum))

namespace Datum

instance : Inhabited Datum :=
  ⟨.null⟩

/-- The member of a name; of several, the last one counts. -/
def member? (members : List (String × Datum)) (name : String) : Option Datum :=
  members.reverse.lookup name

/-- A natural number not above a highest one. -/
def upTo? (highest : Nat) : Datum → Option Nat
  | .natural value => if value ≤ highest then some value else none
  | _ => none

def word32? : Datum → Option Nat :=
  upTo? 4294967295

def word64? : Datum → Option Nat :=
  upTo? 18446744073709551615

/-- The named members of a structure, in the order of the names, when all of them are there. -/
def members? (names : List String) : Datum → Option (List Datum)
  | .record members => names.mapM (member? members)
  | .list items => if items.length = names.length then some items else none
  | _ => none

/-- The named members of a structure, in the order of the names, of which any may be missing. -/
def optionalMembers? (names : List String) : Datum → Option (List (Option Datum))
  | .record members => some (names.map (member? members))
  | .list items =>
      if items.length ≤ names.length then
        some (items.map some ++ List.replicate (names.length - items.length) none)
      else
        none
  | _ => none

end Datum

end Simplicity
