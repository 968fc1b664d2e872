import Simplicity.Combinator
import Simplicity.Visit

/-!
# Runs that check what they do

The functions of the library are total: a read past the end of an array gives a default, a write
there changes nothing, and a difference of numbers is at least zero. Whoever runs them on a machine
would rather not rely on that. A checked run does the same step by step, and stops with a `Fault` where
an index is out of range, a difference is below zero, or a shift moves all the bits out of a word. A
checked function is named after the plain one.

A checked run never faults if it is the plain run with nothing added, and this is how it is stated: an
equation between the two for every input. The equations are proved from the inside out, so that each
says under which condition the plain function makes no use of a default. Those of loops hold for any
fuel, so nothing is missed that a loop would do if it went on.
-/

namespace Simplicity

/-- What a run may not do. -/
inductive Fault where
  | outOfRange (index size : Nat)
  | underflow (left right : Nat)
  | overshift (amount width : Nat)
  deriving DecidableEq, Repr

/-- A run that stops at a fault. -/
abbrev Checked : Type → Type :=
  Except Fault

/-- A run that stops at a fault, and may otherwise fail with an error of its own. -/
abbrev Attempt (ε : Type) : Type → Type :=
  ExceptT ε Checked

namespace Checked

variable {α : Type}

def read (entries : Array α) (index : Nat) : Checked α :=
  match entries[index]? with
  | some entry => pure entry
  | none => throw (.outOfRange index entries.size)

def write (entries : Array α) (index : Nat) (entry : α) : Checked (Array α) :=
  if index < entries.size then pure (entries.setIfInBounds index entry)
  else throw (.outOfRange index entries.size)

def readByte (bytes : ByteArray) (index : Nat) : Checked UInt8 :=
  read bytes.data index

def minus (left right : Nat) : Checked Nat :=
  if right ≤ left then pure (left - right) else throw (.underflow left right)

/-- The number of places by which a word of the given width is shifted. -/
def places (amount width : Nat) : Checked Nat :=
  if amount < width then pure amount else throw (.overshift amount width)

variable {entries : Array α} {index : Nat}

theorem read_eq_getElem (inside : index < entries.size) :
    read entries index = pure entries[index] := by
  rw [read, Array.getElem?_eq_getElem inside]

theorem read_eq_getD (inside : index < entries.size) (default : α) :
    read entries index = pure (entries.getD index default) := by
  rw [read_eq_getElem inside, Array.getD_eq_getD_getElem?, Array.getElem?_eq_getElem inside,
    Option.getD_some]

theorem write_eq (inside : index < entries.size) (entry : α) :
    write entries index entry = pure (entries.setIfInBounds index entry) :=
  if_pos inside

theorem minus_eq {left right : Nat} (le : right ≤ left) : minus left right = pure (left - right) :=
  if_pos le

theorem places_eq {amount width : Nat} (lt : amount < width) : places amount width = pure amount :=
  if_pos lt

/-- Goes on with the result of a run, and with the knowledge that the run gave it. -/
def andThen {β : Type} : (run : Checked α) → ((result : α) → run = pure result → Checked β) →
    Checked β
  | .error fault, _ => .error fault
  | .ok result, next => next result rfl

theorem andThen_eq {β : Type} {run : Checked α} {result : α} (ran : run = pure result)
    (next : (result : α) → run = pure result → Checked β) : run.andThen next = next result ran := by
  subst ran
  rfl

theorem mapM_eq_map {β : Type} {f : α → Checked β} {g : α → β} {entries : List α}
    (plain : ∀ entry ∈ entries, f entry = pure (g entry)) :
    entries.mapM f = pure (entries.map g) := by
  induction entries with
  | nil => rfl
  | cons entry rest ih =>
      rw [List.forall_mem_cons] at plain
      rw [List.mapM_cons, plain.1, pure_bind, ih plain.2]
      rfl

end Checked

namespace Attempt

variable {ε α β : Type}

/-- A plain run, which does not fault. -/
def of (outcome : Except ε α) : Attempt ε α :=
  ExceptT.mk (pure outcome)

@[simp]
theorem of_ok (result : α) : (of (.ok result) : Attempt ε α) = pure result :=
  rfl

@[simp]
theorem of_pure (result : α) : (of (pure result) : Attempt ε α) = pure result :=
  rfl

@[simp]
theorem of_throw (error : ε) : (of (throw error) : Attempt ε α) = throw error :=
  rfl

@[simp]
theorem of_bind (outcome : Except ε α) (next : α → Except ε β) :
    of (outcome >>= next) = of outcome >>= fun result => of (next result) := by
  cases outcome <;> rfl

@[simp]
theorem of_map (outcome : Except ε α) (f : α → β) :
    of (outcome.map f) = of outcome >>= fun result => pure (f result) := by
  cases outcome <;> rfl

/-- Goes on with the result of a run, and with the knowledge that the run gave it. -/
def andThen : (run : Attempt ε α) → ((result : α) → run = pure result → Attempt ε β) → Attempt ε β
  | .error fault, _ => .error fault
  | .ok (.error error), _ => .ok (.error error)
  | .ok (.ok result), next => next result rfl

theorem andThen_eq_throw {run : Attempt ε α} {error : ε} (ran : run = throw error)
    (next : (result : α) → run = pure result → Attempt ε β) : run.andThen next = throw error := by
  subst ran
  rfl

theorem andThen_eq {run : Attempt ε α} {result : α} (ran : run = pure result)
    (next : (result : α) → run = pure result → Attempt ε β) :
    run.andThen next = next result ran := by
  subst ran
  rfl

theorem foldlM_eq_of {f : β → α → Attempt ε β} {g : β → α → Except ε β} {entries : List α}
    (plain : ∀ entry ∈ entries, ∀ start, f start entry = of (g start entry)) (start : β) :
    entries.foldlM f start = of (entries.foldlM g start) := by
  induction entries generalizing start with
  | nil => rfl
  | cons entry rest ih =>
      rw [List.forall_mem_cons] at plain
      simp only [List.foldlM_cons, plain.1, ih plain.2, of_bind]

theorem mapM_eq_of {f : α → Attempt ε β} {g : α → Except ε β}
    (plain : ∀ entry, f entry = of (g entry)) (entries : List α) :
    entries.mapM f = of (entries.mapM g) := by
  induction entries with
  | nil => rfl
  | cons entry rest ih => simp only [List.mapM_cons, plain, ih, of_bind, of_pure]

theorem of_inj {outcome : Except ε α} {result : α} (ran : of outcome = pure result) :
    outcome = .ok result := by
  cases outcome with
  | error error => cases ran
  | ok found =>
      cases ran
      rfl

end Attempt

/-- The vertex that a visit is about. -/
def Visit.vertex : Visit → Nat
  | .enter vertex | .leave vertex => vertex

namespace Combinator

variable {ρ σ : Type} {m : Type → Type} [Monad m]

/-- Replaces the references one after another, from left to right. -/
def traverse (f : ρ → m σ) : Combinator ρ → m (Combinator σ)
  | .iden => pure .iden
  | .unit => pure .unit
  | .injl child => return .injl (← f child)
  | .injr child => return .injr (← f child)
  | .take child => return .take (← f child)
  | .drop child => return .drop (← f child)
  | .comp left right => return .comp (← f left) (← f right)
  | .case left right => return .case (← f left) (← f right)
  | .assertl left right => return .assertl (← f left) (← f right)
  | .assertr left right => return .assertr (← f left) (← f right)
  | .pair left right => return .pair (← f left) (← f right)
  | .disconnect left right => return .disconnect (← f left) (← f right)
  | .witness => pure .witness
  | .hidden root => pure (.hidden root)

theorem traverse_eq_mapMem [LawfulMonad m] {f : ρ → m σ} {node : Combinator ρ}
    {g : (child : ρ) → child ∈ node.children → σ}
    (plain : ∀ child member, f child = pure (g child member)) :
    node.traverse f = pure (node.mapMem g) := by
  cases node with
  | iden | unit | witness | hidden => rfl
  | injl child | injr child | take child | drop child =>
      simp only [traverse, plain child (.head _), pure_bind]
      rfl
  | comp left right | case left right | assertl left right | assertr left right | pair left right
  | disconnect left right =>
      simp only [traverse, plain left (.head _), plain right (.tail _ (.head _)), pure_bind]
      rfl

theorem traverse_eq_map [LawfulMonad m] {f : ρ → m σ} {g : ρ → σ} {node : Combinator ρ}
    (plain : ∀ child ∈ node.children, f child = pure (g child)) :
    node.traverse f = pure (node.map g) :=
  traverse_eq_mapMem plain

end Combinator

end Simplicity
