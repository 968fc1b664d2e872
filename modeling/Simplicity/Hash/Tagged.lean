import Simplicity.Hash.Message

/-!
# Chaining digests

Roots are made with the bare compression function. A root starts from an initial state that
belongs to the kind of thing being hashed, absorbs one or more blocks of two digests each, and
the state reached is the root. No length is appended.
-/

namespace Simplicity

namespace Digest

/-- The state after the block of two digests. -/
def absorb (state left right : Digest) : Digest :=
  Sha256.compress state (left.words ++ right.words)

/-- The state after a block with a single digest, in its right half. -/
def absorbRight (state right : Digest) : Digest :=
  state.absorb zero right

end Digest

/-- The initial state of a tag: the digest of the tag's bytes is absorbed twice over. -/
def taggedState (tag : ByteArray) : Digest :=
  let digest := Sha256.hash (.ofBytes tag)
  Sha256.initial.absorb digest digest

/-- What every tag starts with. -/
def tagStart : String :=
  "Simplicity-Draft\x1f"

/-- The initial state for one name in a domain. -/
def domainState (domain name : String) : Digest :=
  taggedState (tagStart ++ domain ++ "\x1f" ++ name).toUTF8

end Simplicity
