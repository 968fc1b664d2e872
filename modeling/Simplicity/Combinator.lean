import Simplicity.Hash.Digest

/-!
# Combinators

An expression is made of combinators that refer to other expressions. What such a reference is
differs from one use to the next: an index into a list of nodes, the root of the child, the
bounds of the child. A `Combinator ρ` has references of type `ρ`, so a node of a list is a
`Combinator Nat`, and a computation that goes up an expression is a function out of
`Combinator α` into `α`.
-/

namespace Simplicity

universe u v

/-- A combinator with references of type `ρ` to its children. -/
inductive Combinator (ρ : Type u) where
  /-- The identity, `A ⊢ A`. -/
  | iden
  /-- Discards its input, `A ⊢ 1`. -/
  | unit
  /-- The left injection of `A ⊢ B`, `A ⊢ B + C`. -/
  | injl (child : ρ)
  /-- The right injection of `A ⊢ C`, `A ⊢ B + C`. -/
  | injr (child : ρ)
  /-- Applies `A ⊢ C` to the first component, `A × B ⊢ C`. -/
  | take (child : ρ)
  /-- Applies `B ⊢ C` to the second component, `A × B ⊢ C`. -/
  | drop (child : ρ)
  /-- The composition of `A ⊢ B` and `B ⊢ C`, `A ⊢ C`. -/
  | comp (left right : ρ)
  /-- The choice between `A × C ⊢ D` and `B × C ⊢ D`, `(A + B) × C ⊢ D`. -/
  | case (left right : ρ)
  /-- A choice whose right branch is pruned; the right child is hidden. -/
  | assertl (left right : ρ)
  /-- A choice whose left branch is pruned; the left child is hidden. -/
  | assertr (left right : ρ)
  /-- The pair of `A ⊢ B` and `A ⊢ C`, `A ⊢ B × C`. -/
  | pair (left right : ρ)
  /-- The delegation of `2^256 × A ⊢ B × C` to `C ⊢ D`, `A ⊢ B × D`. -/
  | disconnect (left right : ρ)
  /-- A value that is supplied with the program, `A ⊢ B`. -/
  | witness
  /-- A pruned branch, of which only the commitment root is known. -/
  | hidden (root : Digest)
  deriving DecidableEq

namespace Combinator

inductive Tag where
  | iden
  | unit
  | injl
  | injr
  | take
  | drop
  | comp
  | case
  | assertl
  | assertr
  | pair
  | disconnect
  | witness
  | hidden
  deriving DecidableEq, Repr

def Tag.all : Vector Tag 14 :=
  #v[.iden, .unit, .injl, .injr, .take, .drop, .comp, .case, .assertl, .assertr, .pair,
    .disconnect, .witness, .hidden]

def Tag.index : Tag → Fin 14
  | .iden => 0
  | .unit => 1
  | .injl => 2
  | .injr => 3
  | .take => 4
  | .drop => 5
  | .comp => 6
  | .case => 7
  | .assertl => 8
  | .assertr => 9
  | .pair => 10
  | .disconnect => 11
  | .witness => 12
  | .hidden => 13

def Tag.name : Tag → String
  | .iden => "iden"
  | .unit => "unit"
  | .injl => "injl"
  | .injr => "injr"
  | .take => "take"
  | .drop => "drop"
  | .comp => "comp"
  | .case => "case"
  | .assertl => "assertl"
  | .assertr => "assertr"
  | .pair => "pair"
  | .disconnect => "disconnect"
  | .witness => "witness"
  | .hidden => "hidden"

variable {ρ : Type u} {σ : Type v}

def tag : Combinator ρ → Tag
  | .iden => .iden
  | .unit => .unit
  | .injl _ => .injl
  | .injr _ => .injr
  | .take _ => .take
  | .drop _ => .drop
  | .comp _ _ => .comp
  | .case _ _ => .case
  | .assertl _ _ => .assertl
  | .assertr _ _ => .assertr
  | .pair _ _ => .pair
  | .disconnect _ _ => .disconnect
  | .witness => .witness
  | .hidden _ => .hidden

/-- The references, from left to right. -/
def children : Combinator ρ → List ρ
  | .iden | .unit | .witness | .hidden _ => []
  | .injl child | .injr child | .take child | .drop child => [child]
  | .comp left right | .case left right | .assertl left right | .assertr left right
  | .pair left right | .disconnect left right => [left, right]

/-- Replaces every reference, which is known to be one of the combinator's own. -/
def mapMem : (node : Combinator ρ) → ((child : ρ) → child ∈ node.children → σ) → Combinator σ
  | .iden, _ => .iden
  | .unit, _ => .unit
  | .injl child, f => .injl (f child (.head _))
  | .injr child, f => .injr (f child (.head _))
  | .take child, f => .take (f child (.head _))
  | .drop child, f => .drop (f child (.head _))
  | .comp left right, f => .comp (f left (.head _)) (f right (.tail _ (.head _)))
  | .case left right, f => .case (f left (.head _)) (f right (.tail _ (.head _)))
  | .assertl left right, f => .assertl (f left (.head _)) (f right (.tail _ (.head _)))
  | .assertr left right, f => .assertr (f left (.head _)) (f right (.tail _ (.head _)))
  | .pair left right, f => .pair (f left (.head _)) (f right (.tail _ (.head _)))
  | .disconnect left right, f => .disconnect (f left (.head _)) (f right (.tail _ (.head _)))
  | .witness, _ => .witness
  | .hidden root, _ => .hidden root

def map (f : ρ → σ) (node : Combinator ρ) : Combinator σ :=
  node.mapMem fun child _ => f child

theorem length_children_le (node : Combinator ρ) : node.children.length ≤ 2 := by
  cases node <;> simp [children]

@[simp] theorem children_map (f : ρ → σ) (node : Combinator ρ) :
    (node.map f).children = node.children.map f := by
  cases node <;> rfl

@[simp] theorem tag_map (f : ρ → σ) (node : Combinator ρ) : (node.map f).tag = node.tag := by
  cases node <;> rfl

@[simp] theorem map_id (node : Combinator ρ) : node.map id = node := by
  cases node <;> rfl

@[simp] theorem map_map {τ : Type v} (g : σ → τ) (f : ρ → σ) (node : Combinator ρ) :
    (node.map f).map g = node.map (g ∘ f) := by
  cases node <;> rfl

theorem mapMem_eq_map {node : Combinator ρ} {f : (child : ρ) → child ∈ node.children → σ}
    {g : ρ → σ} (agree : ∀ child member, f child member = g child) :
    node.mapMem f = node.map g :=
  congrArg node.mapMem (funext fun child => funext fun member => agree child member)

theorem map_congr {f g : ρ → σ} {node : Combinator ρ}
    (agree : ∀ child ∈ node.children, f child = g child) : node.map f = node.map g :=
  mapMem_eq_map agree

def isHidden : Combinator ρ → Bool
  | .hidden _ => true
  | _ => false

def isWitness : Combinator ρ → Bool
  | .witness => true
  | _ => false

@[simp] theorem isHidden_map (f : ρ → σ) (node : Combinator ρ) :
    (node.map f).isHidden = node.isHidden := by
  cases node <;> rfl

@[simp] theorem isWitness_map (f : ρ → σ) (node : Combinator ρ) :
    (node.map f).isWitness = node.isWitness := by
  cases node <;> rfl

theorem Tag.get_all_index (tag : Tag) : Tag.all.get tag.index = tag := by
  cases tag <;> rfl

end Combinator

/-- A node of a list of nodes, which refers to its children by their indices. -/
abbrev Node : Type :=
  Combinator Nat

end Simplicity
