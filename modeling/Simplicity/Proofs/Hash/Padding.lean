import Simplicity.Proofs.Hash.Collision

/-!
# Padding

The digest of a message is defined on the sequence of its bits: a one is put behind them, then as
few zeros as it takes to end 64 bits short of a whole number of blocks, and then the length of the
message as a word of 64 bits. `Pads` states this without packed bytes, and without saying how the
number of zeros is found; `hash` folds the compression function over exactly the blocks whose bits
are those.

The length at the end is what makes padded messages tell messages apart, and it does more: since a
padded message ends with the length of what it pads, none is a proper end of another. Whoever reads
the blocks of a digest backwards therefore knows where they begin. So two messages are told apart by
their digests if the compression function has no collision among its applications, even where it
gives the initial state back.
-/

namespace Simplicity.Sha256

open BitString (lowBits)

/-- The bits of the sixteen words of a block, each from its most significant one. -/
def bitsOf (block : Block) : List Bool :=
  block.toList.flatMap fun word => lowBits word.toNat 32

/-- A sequence of bits is the padded form of a message: the message, a one, the fewest zeros that
make the whole a number of blocks, and the length of the message in 64 bits. -/
def Pads (message padded : List Bool) : Prop :=
  ∃ (zeros : Nat) (length : UInt64), length.toNat = message.length ∧
    IsLeast {count | 512 ∣ message.length + 1 + count + 64} zeros ∧
    padded = message ++ [true] ++ List.replicate zeros false ++ lowBits length.toNat 64

section Blocks

/-- What has been cut into pieces of one width can be put together in one way only. -/
theorem eq_of_flatMap_eq {α β : Type} {piece : α → List β} {width : Nat} (positive : 0 < width)
    (lengths : ∀ item, (piece item).length = width) (injective : Function.Injective piece)
    {left right : List α} (same : left.flatMap piece = right.flatMap piece) : left = right := by
  have nonempty : ∀ item, piece item ≠ [] := by
    intro item isEmpty
    have := lengths item
    simp_all
  induction left generalizing right with
  | nil =>
      cases right with
      | nil => rfl
      | cons item rest => exact absurd same.symm (by simp [nonempty])
  | cons item rest ih =>
      cases right with
      | nil => exact absurd same (by simp [nonempty])
      | cons item' rest' =>
          rw [List.flatMap_cons, List.flatMap_cons] at same
          rcases List.append_inj same ((lengths item).trans (lengths item').symm) with
            ⟨sameItem, sameRest⟩
          rw [injective sameItem, ih sameRest]

theorem length_bitsOf (block : Block) : (bitsOf block).length = 512 := by
  simp [bitsOf, List.length_flatMap]

theorem bitsOf_injective : Function.Injective bitsOf := by
  intro block block' same
  apply Vector.toList_inj.mp
  refine eq_of_flatMap_eq (by decide : 0 < 32) (by simp) ?_ same
  intro word word' sameBits
  exact UInt32.toNat_inj.mp (BitString.eq_of_lowBits_eq word.toNat_lt word'.toNat_lt sameBits)

theorem bitsOf_blockAt (padded : BitString) (index : Nat) :
    bitsOf (blockAt padded index) =
      (List.range 512).map fun offset => bitAt padded.bytes (512 * index + offset) := by
  have words : (blockAt padded index).toList =
      (List.range 16).map fun word =>
        UInt32.ofNat (padded.natAt (512 * index + 32 * word) 32) := by
    rw [blockAt, Vector.toList_ofFn, List.ofFn_eq_map, ← List.map_coe_finRange_eq_range,
      List.map_map]
    rfl
  rw [bitsOf, words, List.flatMap_map,
    ← flatMap_range_map (fun offset => bitAt padded.bytes (512 * index + offset)) 32 16]
  refine congrArg (List.range 16).flatMap (funext fun word => ?_)
  rw [UInt32.toNat_ofNat_of_lt' (BitString.natAt_lt _ _ _), BitString.lowBits_natAt]
  simp only [Nat.add_assoc]

/-- Whole blocks hold the bits that they are cut from. -/
theorem flatMap_bitsOf_blocks {padded : BitString} (whole : padded.length % 512 = 0) :
    (blocks padded).flatMap bitsOf = padded.toList := by
  have length_eq : 512 * (padded.length / 512) = padded.length := by omega
  rw [blocks, List.flatMap_map]
  simp only [bitsOf_blockAt]
  rw [flatMap_range_map, length_eq]
  rfl

end Blocks

section Forms

variable {message message' : BitString} {padded : List Bool}

/-- A message whose length fits in 64 bits has one padded form. -/
theorem pads_iff : Pads message.toList padded ↔
    message.length < 2 ^ 64 ∧ padded = (pad message).toList := by
  rw [toList_pad]
  constructor
  · rintro ⟨zeros, length, length_eq, fewest, rfl⟩
    rw [BitString.length_toList] at length_eq fewest
    rw [(isLeast_fill message.length).unique fewest, length_eq]
    exact ⟨length_eq ▸ length.toNat_lt, by simp⟩
  · rintro ⟨short, rfl⟩
    refine ⟨fill message.length, UInt64.ofNat message.length, ?_, ?_, ?_⟩
    · rw [BitString.length_toList, UInt64.toNat_ofNat_of_lt' short]
    · rw [BitString.length_toList]
      exact isLeast_fill message.length
    · rw [UInt64.toNat_ofNat_of_lt' short]
      simp

end Forms

/-- The digest of a message is what the compression function makes of the blocks of its padded form.
There is one such list of blocks, and no other message has the same padded form. -/
theorem hash_eq_foldl_of_pads (message : BitString) (short : message.length < 2 ^ 64) :
    (∃! blocks : List Block, Pads message.toList (blocks.flatMap bitsOf)) ∧
    (∀ blocks : List Block, Pads message.toList (blocks.flatMap bitsOf) →
      hash message = blocks.foldl compress initial) ∧
    ∀ message' : BitString, message' ≠ message → ∀ padded padded',
      Pads message.toList padded → Pads message'.toList padded' → padded ≠ padded' := by
  have whole := flatMap_bitsOf_blocks (length_pad_mod message)
  have unique : ∀ cut : List Block, Pads message.toList (cut.flatMap bitsOf) →
      cut = blocks (pad message) := by
    intro cut pads
    apply eq_of_flatMap_eq (by decide) length_bitsOf bitsOf_injective
    rw [whole, (pads_iff.mp pads).2]
  refine ⟨⟨_, pads_iff.mpr ⟨short, whole⟩, unique⟩, ?_, ?_⟩
  · intro cut pads
    rw [unique cut pads, hash_eq]
  · rintro message' different padded _ pads pads' rfl
    have same := (pads_iff.mp pads).2.symm.trans (pads_iff.mp pads').2
    exact different (pad_injective (BitString.eq_of_toList_eq same)).symm

/-- Behind 448 bits there is room for the one in their block, but not for the length. -/
theorem hash_eq_foldl_of_pads_twoBlocks :
    let message := BitString.ofBits (List.replicate 448 true)
    let first : Block := Vector.replicate 14 (0xffffffff : UInt32) ++ #v[(0x80000000 : UInt32), 0]
    let second : Block := Vector.replicate 15 (0 : UInt32) ++ #v[(448 : UInt32)]
    message.length < 2 ^ 64 ∧ Pads message.toList (bitsOf first ++ bitsOf second) ∧
      hash message = compress (compress initial first) second := by
  intro message first second
  have short : message.length < 2 ^ 64 := by
    rw [← BitString.length_toList, BitString.toList_ofBits, List.length_replicate]
    decide
  have pads : Pads message.toList ([first, second].flatMap bitsOf) := by
    rw [BitString.toList_ofBits]
    refine ⟨511, 448, ?_, ?_, by decide +kernel⟩
    · rw [List.length_replicate]
      rfl
    · rw [List.length_replicate]
      exact isLeast_fill 448
  exact ⟨short, by simpa using pads, (hash_eq_foldl_of_pads message short).2.1 _ pads⟩

section Ends

variable {applications : List (Digest × Block)} {message message' : BitString}

/-- No two of the applications give one result. -/
def NoCollision (applications : List (Digest × Block)) : Prop :=
  ∀ first ∈ applications, ∀ second ∈ applications,
    compress first.1 first.2 = compress second.1 second.2 → first = second

instance (applications : List (Digest × Block)) : Decidable (NoCollision applications) :=
  inferInstanceAs (Decidable (∀ first ∈ applications, ∀ second ∈ applications,
    compress first.1 first.2 = compress second.1 second.2 → first = second))

/-- Going back from the same digest, blocks agree until one of the lists is used up. -/
theorem suffix_of_run_eq (free : NoCollision applications) {blocks blocks' : List Block}
    (within : trail blocks ⊆ applications) (within' : trail blocks' ⊆ applications)
    (same : run blocks = run blocks') : blocks <:+ blocks' ∨ blocks' <:+ blocks := by
  induction blocks using List.reverseRecOn generalizing blocks' with
  | nil => exact .inl List.nil_suffix
  | append_singleton rest block ih =>
      rcases List.eq_nil_or_concat blocks' with rfl | ⟨rest', block', rfl⟩
      · exact .inr List.nil_suffix
      · rw [List.concat_eq_append, trail_append, List.append_subset] at within'
        rw [trail_append, List.append_subset] at within
        rw [List.concat_eq_append, run_append, run_append] at same
        have applied := within.2 List.mem_cons_self
        have applied' := within'.2 List.mem_cons_self
        rcases Prod.mk.inj (free _ applied _ applied' same) with ⟨sameRest, rfl⟩
        rw [List.concat_eq_append]
        rcases ih within.1 within'.1 sameRest with ⟨front, rfl⟩ | ⟨front, rfl⟩
        · exact .inl ⟨front, (List.append_assoc _ _ _).symm⟩
        · exact .inr ⟨front, (List.append_assoc _ _ _).symm⟩

theorem lowBits_suffix_pad (message : BitString) :
    lowBits message.length 64 <:+ (pad message).toList := by
  rw [toList_pad, ← List.cons_append, ← List.append_assoc]
  exact List.suffix_append _ _

/-- No padded message is a proper end of another one. -/
theorem eq_of_pad_suffix (short : message.length < 2 ^ 64) (short' : message'.length < 2 ^ 64)
    (ends : (pad message).toList <:+ (pad message').toList) : message = message' := by
  have sameEnd : lowBits message.length 64 = lowBits message'.length 64 := by
    have suffix := List.suffix_of_suffix_length_le ((lowBits_suffix_pad message).trans ends)
      (lowBits_suffix_pad message') (by simp)
    exact suffix.eq_of_length (by simp)
  have lengths := BitString.eq_of_lowBits_eq short short' sameEnd
  have samePadded := ends.eq_of_length (by simp [length_pad, lengths])
  exact pad_injective (BitString.eq_of_toList_eq samePadded)

theorem eq_of_blocks_suffix (short : message.length < 2 ^ 64) (short' : message'.length < 2 ^ 64)
    (ends : blocks (pad message) <:+ blocks (pad message')) : message = message' := by
  rcases ends with ⟨front, split⟩
  apply eq_of_pad_suffix short short'
  refine ⟨front.flatMap bitsOf, ?_⟩
  rw [← flatMap_bitsOf_blocks (length_pad_mod message),
    ← flatMap_bitsOf_blocks (length_pad_mod message'), ← split, List.flatMap_append]

/-- A message can be read off its digest, whether or not the initial state is reached again. -/
theorem eq_of_hash_eq (free : NoCollision applications) (short : message.length < 2 ^ 64)
    (short' : message'.length < 2 ^ 64)
    (within : trail (blocks (pad message)) ⊆ applications)
    (within' : trail (blocks (pad message')) ⊆ applications)
    (same : hash message = hash message') : message = message' := by
  rw [hash_eq, hash_eq] at same
  rcases suffix_of_run_eq free within within' same with ends | ends
  · exact eq_of_blocks_suffix short short' ends
  · exact (eq_of_blocks_suffix short' short ends).symm

end Ends

end Simplicity.Sha256
