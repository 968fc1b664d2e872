import Mathlib.Data.List.Induction
import Simplicity.Hash.Tagged
import Simplicity.Proofs.Hash.Blocks

/-!
# Collision freedom

A digest is what a list of blocks takes the initial state to. If no two of the applications of the
compression function on the way of two lists give one result, and none gives the initial state back,
then the digests of the lists differ if the lists do: going back from the last block, each pair of
applications is one application, and one list cannot end before the other, as the initial state is
not the result of an application.

Whatever is hashed can be read off its blocks: a message off its padded form, and the digests that
are absorbed behind a tag, if their number is known. So tags, messages and digests are told apart by
what they are hashed to. Nothing else is asked of the compression function.
-/

namespace Simplicity

namespace Sha256

/-- The state that blocks take the initial state to. -/
def run (blocks : List Block) : Digest :=
  blocks.foldl compress initial

/-- The applications of the compression function by which blocks are taken in after a state. -/
def trailFrom (state : Digest) : List Block → List (Digest × Block)
  | [] => []
  | block :: rest => (state, block) :: trailFrom (compress state block) rest

/-- The applications of the compression function by which blocks are taken in. -/
def trail (blocks : List Block) : List (Digest × Block) :=
  trailFrom initial blocks

/-- No two of the applications give one result, and none gives the initial state. -/
structure CollisionFree (applications : List (Digest × Block)) : Prop where
  injective : ∀ first ∈ applications, ∀ second ∈ applications,
    compress first.1 first.2 = compress second.1 second.2 → first = second
  initial_ne : ∀ application ∈ applications, compress application.1 application.2 ≠ initial

instance (applications : List (Digest × Block)) : Decidable (CollisionFree applications) :=
  decidable_of_iff
    ((∀ first ∈ applications, ∀ second ∈ applications,
        compress first.1 first.2 = compress second.1 second.2 → first = second) ∧
      ∀ application ∈ applications, compress application.1 application.2 ≠ initial)
    ⟨fun ⟨injective, initial_ne⟩ => ⟨injective, initial_ne⟩,
      fun ⟨injective, initial_ne⟩ => ⟨injective, initial_ne⟩⟩

theorem run_append (blocks : List Block) (block : Block) :
    run (blocks ++ [block]) = compress (run blocks) block := by
  simp [run]

theorem trail_append (blocks : List Block) (block : Block) :
    trail (blocks ++ [block]) = trail blocks ++ [(run blocks, block)] := by
  suffices ∀ state, trailFrom state (blocks ++ [block]) =
      trailFrom state blocks ++ [(blocks.foldl compress state, block)] from this initial
  induction blocks with
  | nil => exact fun _ => rfl
  | cons first rest ih => exact fun state => congrArg ((state, first) :: ·) (ih _)

section Binding

variable {applications : List (Digest × Block)}

/-- Blocks can be read off the digest, back from the last one. -/
theorem run_injective (free : CollisionFree applications) {blocks blocks' : List Block}
    (within : trail blocks ⊆ applications) (within' : trail blocks' ⊆ applications)
    (same : run blocks = run blocks') : blocks = blocks' := by
  induction blocks using List.reverseRecOn generalizing blocks' with
  | nil =>
      rcases List.eq_nil_or_concat blocks' with rfl | ⟨rest', block', rfl⟩
      · rfl
      · rw [List.concat_eq_append, trail_append, List.append_subset] at within'
        rw [List.concat_eq_append, run_append] at same
        exact absurd same.symm (free.initial_ne _ (within'.2 List.mem_cons_self))
  | append_singleton rest block ih =>
      rw [trail_append, List.append_subset] at within
      rw [run_append] at same
      have applied := within.2 List.mem_cons_self
      rcases List.eq_nil_or_concat blocks' with rfl | ⟨rest', block', rfl⟩
      · exact absurd same (free.initial_ne _ applied)
      · rw [List.concat_eq_append, trail_append, List.append_subset] at within'
        rw [List.concat_eq_append, run_append] at same
        have applied' := within'.2 List.mem_cons_self
        rcases Prod.mk.inj (free.injective _ applied _ applied' same) with ⟨sameRest, sameBlock⟩
        rw [List.concat_eq_append, ih within.1 within'.1 sameRest, sameBlock]

/-- The bits of a message, the closing one, the zeros and the length. -/
theorem toList_pad (message : BitString) :
    (pad message).toList = message.toList ++
      (true :: (List.replicate (fill message.length) false ++
        BitString.lowBits message.length 64)) := by
  simp [pad]

theorem length_pad (message : BitString) :
    (pad message).length = message.length + 1 + fill message.length + 64 := by
  rw [← BitString.length_toList, toList_pad]
  simp
  omega

theorem length_pad_mod (message : BitString) : (pad message).length % 512 = 0 := by
  rw [length_pad, fill]
  omega

/-- The length is known up to a multiple of 512 from its last bits, and so how many zeros there
are. -/
theorem pad_injective {message message' : BitString} (same : pad message = pad message') :
    message = message' := by
  have sameBits := congrArg BitString.toList same
  have sameLength := congrArg BitString.length same
  rw [toList_pad, toList_pad, ← List.cons_append, ← List.cons_append, ← List.append_assoc,
    ← List.append_assoc] at sameBits
  rcases List.append_inj' sameBits (by simp) with ⟨sameFront, sameEnd⟩
  have sameRest : message.length % 2 ^ 64 = message'.length % 2 ^ 64 := by
    rw [← BitString.lowBits_mod_two_pow, ← BitString.lowBits_mod_two_pow message'.length] at sameEnd
    exact BitString.eq_of_lowBits_eq (Nat.mod_lt _ (by decide)) (Nat.mod_lt _ (by decide)) sameEnd
  have lengths : message.length = message'.length := by
    rw [length_pad, length_pad, fill, fill] at sameLength
    omega
  apply BitString.eq_of_toList_eq
  exact (List.append_inj sameFront (by simpa using lengths)).1

/-- The bits of whole blocks can be read off the blocks. -/
theorem blocks_injective {padded padded' : BitString} (whole : padded.length % 512 = 0)
    (whole' : padded'.length % 512 = 0) (same : blocks padded = blocks padded') :
    padded = padded' := by
  have counts : padded.length / 512 = padded'.length / 512 := by
    simpa [blocks] using congrArg List.length same
  have lengths : padded.length = padded'.length := by omega
  have sameBlock : ∀ index, index < padded.length / 512 →
      blockAt padded index = blockAt padded' index := by
    intro index inside
    rw [blocks, blocks, counts] at same
    exact List.map_inj_left.mp same index (List.mem_range.mpr (counts ▸ inside))
  have sameWord : ∀ index, index < padded.length / 512 → ∀ word, word < 16 →
      padded.natAt (512 * index + 32 * word) 32 = padded'.natAt (512 * index + 32 * word) 32 := by
    intro index inside word small
    have words := congrArg (fun block : Block => block[word]) (sameBlock index inside)
    simp only [blockAt, Vector.getElem_ofFn] at words
    have numbers := congrArg UInt32.toNat words
    rwa [UInt32.toNat_ofNat_of_lt' (BitString.natAt_lt _ _ _),
      UInt32.toNat_ofNat_of_lt' (BitString.natAt_lt _ _ _)] at numbers
  apply BitString.eq_of_toList_eq
  rw [BitString.toList, BitString.toList, ← lengths]
  apply List.map_congr_left
  intro position member
  have inside := List.mem_range.mp member
  have bits := congrArg (BitString.lowBits · 32)
    (sameWord (position / 512) (by omega) (position % 512 / 32) (by omega))
  rw [BitString.lowBits_natAt, BitString.lowBits_natAt] at bits
  have bit := List.map_inj_left.mp bits (position % 32) (List.mem_range.mpr (by omega))
  rwa [show 512 * (position / 512) + 32 * (position % 512 / 32) + position % 32 = position by omega]
    at bit

/-- A message can be read off its digest. -/
theorem hash_injective (free : CollisionFree applications) {message message' : BitString}
    (within : trail (blocks (pad message)) ⊆ applications)
    (within' : trail (blocks (pad message')) ⊆ applications)
    (same : hash message = hash message') : message = message' := by
  rw [hash_eq, hash_eq] at same
  exact pad_injective (blocks_injective (length_pad_mod _) (length_pad_mod _)
    (run_injective free within within' same))

end Binding

end Sha256

namespace Digest

/-- The block of two digests. -/
def block (left right : Digest) : Block :=
  left.words ++ right.words

theorem block_injective {left right left' right' : Digest}
    (same : block left right = block left' right') : left = left' ∧ right = right' := by
  rcases left, right, left', right' with ⟨⟨left⟩, ⟨right⟩, ⟨left'⟩, ⟨right'⟩⟩
  rcases Vector.append_inj same with ⟨sameLeft, sameRight⟩
  exact ⟨congrArg Digest.mk sameLeft, congrArg Digest.mk sameRight⟩

/-- The blocks of an even number of digests. -/
def pairs : List Digest → List Block
  | left :: right :: rest => block left right :: pairs rest
  | _ => []

@[simp]
theorem foldl_pairs_nil (state : Digest) : (pairs []).foldl Sha256.compress state = state :=
  rfl

@[simp]
theorem foldl_pairs_cons_cons (state left right : Digest) (rest : List Digest) :
    (pairs (left :: right :: rest)).foldl Sha256.compress state =
      (pairs rest).foldl Sha256.compress (state.absorb left right) :=
  rfl

theorem pairs_injective {digests digests' : List Digest} (even : digests.length % 2 = 0)
    (lengths : digests.length = digests'.length) (same : pairs digests = pairs digests') :
    digests = digests' := by
  fun_induction pairs digests generalizing digests' with
  | case1 left right rest ih =>
      rcases digests' with _ | ⟨left', _ | ⟨right', rest'⟩⟩
      · simp at lengths
      · simp at lengths
      · simp only [pairs, List.cons.injEq] at same
        simp only [List.length_cons] at even lengths
        rcases block_injective same.1 with ⟨rfl, rfl⟩
        rw [ih (by omega) (by omega) same.2]
  | case2 digests few =>
      rcases digests with _ | ⟨digest, _ | ⟨second, rest⟩⟩
      · exact (List.length_eq_zero_iff.mp lengths.symm).symm
      · simp at even
      · exact absurd rfl (few digest second rest)

/-- The blocks of any number of digests: if the number is odd, the first block has only one. -/
def blocks (digests : List Digest) : List Block :=
  pairs (if digests.length % 2 = 0 then digests else zero :: digests)

theorem blocks_injective {digests digests' : List Digest}
    (lengths : digests.length = digests'.length) (same : blocks digests = blocks digests') :
    digests = digests' := by
  simp only [blocks, ← lengths] at same
  split at same
  case isTrue even => exact pairs_injective even lengths same
  case isFalse odd =>
    have filled := pairs_injective (by simp only [List.length_cons]; omega) (by simpa using lengths)
      same
    exact (List.cons.inj filled).2

end Digest

/-- The message of the tag for a name in a domain. -/
def tagMessage (domain name : String) : BitString :=
  .ofBytes (tagStart ++ domain ++ "\x1f" ++ name).toUTF8

theorem tagMessage_injective {domain name name' : String}
    (same : tagMessage domain name = tagMessage domain name') : name = name' := by
  have bytes := congrArg BitString.bytes same
  exact (String.append_right_inj _).mp (String.toByteArray_inj.mp bytes)

/-- The blocks of a root: the block that takes the initial state to that of the tag, and the blocks
of what is absorbed. -/
def rootBlocks (domain name : String) (digests : List Digest) : List Block :=
  let tag := Sha256.hash (tagMessage domain name)
  tag.block tag :: Digest.blocks digests

theorem run_rootBlocks (domain name : String) (digests : List Digest) :
    Sha256.run (rootBlocks domain name digests) =
      (Digest.blocks digests).foldl Sha256.compress (domainState domain name) :=
  rfl

/-- The applications of the compression function that make the state of a tag and a root. -/
def rootTrail (domain name : String) (digests : List Digest) : List (Digest × Block) :=
  Sha256.trail (Sha256.blocks (Sha256.pad (tagMessage domain name))) ++
    Sha256.trail (rootBlocks domain name digests)

/-- The name of the tag and the blocks of what has been absorbed can be read off a root. -/
theorem rootBlocks_injective {applications : List (Digest × Block)}
    (free : Sha256.CollisionFree applications) {domain name name' : String}
    {digests digests' : List Digest} (within : rootTrail domain name digests ⊆ applications)
    (within' : rootTrail domain name' digests' ⊆ applications)
    (same : Sha256.run (rootBlocks domain name digests) =
      Sha256.run (rootBlocks domain name' digests')) :
    name = name' ∧ Digest.blocks digests = Digest.blocks digests' := by
  rw [rootTrail, List.append_subset] at within within'
  rcases List.cons.inj (Sha256.run_injective free within.2 within'.2 same) with
    ⟨sameTag, sameBlocks⟩
  have sameMessage :=
    Sha256.hash_injective free within.1 within'.1 (Digest.block_injective sameTag).1
  exact ⟨tagMessage_injective sameMessage, sameBlocks⟩

end Simplicity
