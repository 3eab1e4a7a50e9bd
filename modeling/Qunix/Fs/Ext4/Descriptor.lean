import Qunix.Fs.Ext4.JournalCrash
import Mathlib.Data.List.Forall2

/-! # Reading back a descriptor block

`commit` packs one tag per block into the descriptor, `parse_descriptor` walks them
again. The first tag is followed by room for a UUID, the last one ends the walk.
-/

namespace Qunix.Fs.Ext4.Journal

open Foundation Bytes List

variable {blockSize : Nat}

/-! ## One tag -/

variable {front rest : List UInt8} {fsBlock flags : Nat}

theorem readBe16_tag (room : front.length + tagSize ≤ blockSize) (small : flags < 65536) :
    readBe16 (resize blockSize (front ++ (tag fsBlock flags ++ rest))) (front.length + 4) =
      flags := by
  have fits : front.length + 12 ≤ blockSize := room
  rw [readBe16, byteAt_resize (by omega), byteAt_resize (by omega), add_assoc,
    byteAt_append, byteAt_append]
  simp only [byteAt, tag, be32, be16, cons_append, nil_append, getD_cons_succ,
    getD_cons_zero, Nat.reduceAdd, UInt8.toNat_ofNat']
  omega

theorem fsBlock_tag (room : front.length + tagSize ≤ blockSize) :
    readBe32 (resize blockSize (front ++ (tag fsBlock flags ++ rest))) front.length +
        readBe16 (resize blockSize (front ++ (tag fsBlock flags ++ rest))) (front.length + 6) *
          4294967296 =
      fsBlock % 281474976710656 := by
  have fits : front.length + 12 ≤ blockSize := room
  rw [readBe32_resize (by omega), readBe16, byteAt_resize (by omega), byteAt_resize (by omega),
    add_assoc front.length, byteAt_append, byteAt_append]
  have low := readBe32_append front (tag fsBlock flags ++ rest) 0
  rw [add_zero] at low
  rw [low]
  simp only [readBe32, readBe16, byteAt, tag, be32, be16, cons_append, nil_append,
    getD_cons_succ, getD_cons_zero, Nat.reduceAdd, UInt8.toNat_ofNat']
  omega

theorem tagFlags_small (index count : Nat) : tagFlags index count < 65536 := by
  rw [tagFlags, sameUuidFlag, lastTagFlag]
  split <;> split <;> omega

theorem tagFlags_even (index count : Nat) : tagFlags index count % 2 = 0 := by
  rw [tagFlags, sameUuidFlag, lastTagFlag]
  split <;> split <;> rfl

theorem tagFlags_last (index count : Nat) :
    tagFlags index count / lastTagFlag % 2 ≠ 0 ↔ index + 1 = count := by
  rw [tagFlags, sameUuidFlag, lastTagFlag]
  split <;> split <;> simp [*]

theorem tagFlags_uuid (index count : Nat) :
    tagFlags index count / sameUuidFlag % 2 = 0 ↔ index = 0 := by
  rw [tagFlags, sameUuidFlag, lastTagFlag]
  split <;> split <;> simp <;> omega

/-! ## The walk over the tags -/

/-- What the walk reads: the block numbers as the tags hold them, with their flags. -/
def parsedTags (count : Nat) : (index : Nat) → List Nat → List (Nat × Nat)
  | _, [] => []
  | index, fsBlock :: rest =>
    (fsBlock % 281474976710656, tagFlags index count) :: parsedTags count (index + 1) rest

theorem parseTags_tag {index count turns : Nat} (room : front.length + tagSize ≤ blockSize) :
    parseTags (resize blockSize (front ++ (tag fsBlock (tagFlags index count) ++ rest)))
        (turns + 1) front.length =
      (fsBlock % 281474976710656, tagFlags index count) ::
        (if index + 1 = count then []
        else
          parseTags (resize blockSize (front ++ (tag fsBlock (tagFlags index count) ++ rest)))
            turns (front.length + tagSize + if index = 0 then 16 else 0)) := by
  rw [parseTags, length_resize, if_pos room]
  simp only [fsBlock_tag room, readBe16_tag room (tagFlags_small index count), tagFlags_last,
    tagFlags_uuid]
  split
  next => rfl
  split
  next => rfl
  next => rfl

theorem parseTags_later (count : Nat) (numbers : List Nat) :
    ∀ {front : List UInt8} {index turns : Nat}, 0 < index → numbers ≠ [] →
      index + numbers.length = count → numbers.length ≤ turns →
      front.length + tagSize * numbers.length ≤ blockSize →
      parseTags (resize blockSize (front ++ tags blockSize count index front.length numbers))
          turns front.length =
        parsedTags count index numbers := by
  induction numbers with
  | nil =>
    intro _ _ _ _ nonempty
    exact absurd rfl nonempty
  | cons fsBlock rest induction =>
    intro front index turns later _ last enough room
    rw [length_cons] at last enough room
    obtain ⟨turns, rfl⟩ : ∃ more, turns = more + 1 := ⟨turns - 1, by omega⟩
    have here : front.length + tagSize ≤ blockSize := by
      rw [tagSize] at room ⊢
      omega
    rw [tags, if_neg (by omega), if_pos later, parseTags_tag here, parsedTags]
    congr 1
    cases rest with
    | nil =>
      rw [if_pos (by omega)]
      rfl
    | cons next rest =>
      have length : (front ++ tag fsBlock (tagFlags index count)).length =
          front.length + tagSize := by
        rw [length_append]
        rfl
      have following := @induction (front ++ tag fsBlock (tagFlags index count)) (index + 1)
        turns (Nat.succ_pos index) (by simp) (by omega) (by omega)
        (by rw [length, tagSize] at *; omega)
      rw [length, append_assoc] at following
      rw [length_cons] at last
      rw [if_neg (by omega), if_neg (by omega), add_zero]
      exact following

theorem blockHeader_length (blockType sequence : Nat) :
    (blockHeader blockType sequence).length = 12 := rfl

section Walk

variable {txn : Transaction} {first : Nat × List UInt8} {others : List (Nat × List UInt8)}
  (blocks : txn.blocks = first :: others) (large : 1024 ≤ blockSize)

include blocks large

theorem descriptorBlock_eq :
    descriptorBlock blockSize txn =
      resize blockSize (blockHeader descriptorType txn.sequence ++
        (tag first.1 (tagFlags 0 txn.blocks.length) ++ (List.replicate 16 0 ++
            tags blockSize txn.blocks.length 1 40 (others.map Prod.fst)))) := by
  rw [descriptorBlock, blocks, map_cons, tags, if_neg (by rw [tagSize]; omega),
    if_neg (lt_irrefl 0), append_assoc]
  rfl

theorem parseDescriptor_first :
    parseDescriptor (descriptorBlock blockSize txn) =
      (first.1 % 281474976710656, tagFlags 0 txn.blocks.length) ::
        (if others = [] then []
        else parseTags (descriptorBlock blockSize txn) (blockSize - 1) 40) := by
  have room : (blockHeader descriptorType txn.sequence).length + tagSize ≤ blockSize :=
    le_trans (by decide : 24 ≤ 1024) large
  obtain ⟨turns, rfl⟩ : ∃ turns, blockSize = turns + 1 := ⟨blockSize - 1, by omega⟩
  have single : 0 + 1 = txn.blocks.length ↔ others = [] := by
    rw [blocks, length_cons, Nat.add_right_cancel_iff, eq_comm, length_eq_zero_iff]
  rw [descriptorBlock_eq blocks large, parseDescriptor, length_resize,
    Nat.add_sub_cancel, ← blockHeader_length descriptorType txn.sequence, parseTags_tag room]
  simp only [single, if_pos]
  rfl

theorem parseDescriptor_eq (fits : 28 + tagSize * txn.blocks.length ≤ blockSize) :
    parseDescriptor (descriptorBlock blockSize txn) =
      parsedTags txn.blocks.length 0 (txn.blocks.map Prod.fst) := by
  rw [parseDescriptor_first blocks large]
  have numbers : txn.blocks.map Prod.fst = first.1 :: others.map Prod.fst := by
    rw [blocks, map_cons]
  have count : txn.blocks.length = others.length + 1 := by rw [blocks, length_cons]
  rw [numbers, parsedTags]
  congr 1
  split
  next none =>
    rw [none]
    rfl
  next several =>
    have front : (blockHeader descriptorType txn.sequence ++
        tag first.1 (tagFlags 0 txn.blocks.length) ++ List.replicate 16 0).length = 40 := rfl
    rw [tagSize, count] at fits
    have walk := @parseTags_later blockSize txn.blocks.length (others.map Prod.fst)
      (blockHeader descriptorType txn.sequence ++
        tag first.1 (tagFlags 0 txn.blocks.length) ++ List.replicate 16 0) 1 (blockSize - 1)
      Nat.one_pos (by simpa using several) (by rw [length_map]; omega)
      (by rw [length_map]; omega) (by rw [length_map, front, tagSize]; omega)
    rw [descriptorBlock_eq blocks large]
    exact walk

end Walk

theorem parseTags_length {buf : Block} (turns : Nat) : ∀ {offset}, parseTags buf turns offset ≠ [] →
    offset + tagSize * (parseTags buf turns offset).length ≤ buf.length := by
  induction turns with
  | zero =>
    intro offset some
    exact absurd rfl some
  | succ turns induction =>
    intro offset some
    rw [parseTags] at some ⊢
    split at some
    next room =>
      rw [if_pos room]
      dsimp only
      split
      next => simpa using room
      split
      next =>
        by_cases done : parseTags buf turns (offset + tagSize + 16) = []
        · simpa [done] using room
        · have rest := induction done
          rw [length_cons, mul_add]
          omega
      next =>
        by_cases done : parseTags buf turns (offset + tagSize) = []
        · simpa [done] using room
        · have rest := induction done
          rw [length_cons, mul_add]
          omega
    next => exact absurd rfl some

/-! ## Restored blocks -/

/-- The descriptor names the blocks of the transaction in their order, and the flags
turn the logged copy of each block into its data. -/
def Restored (blockSize : Nat) (txn : Transaction) : Prop :=
  List.Forall₂ (fun parsed block => parsed.1 = block.1 ∧
      unescape parsed.2 (dataBlock blockSize block.2) = resize blockSize block.2)
    (parseDescriptor (descriptorBlock blockSize txn)) txn.blocks

/-- There are blocks, their tags fit behind the header and the UUID, their numbers have
48 bits and none begins with the magic number. -/
structure Describable (blockSize : Nat) (txn : Transaction) : Prop where
  nonempty : txn.blocks ≠ []
  fits : 28 + tagSize * txn.blocks.length ≤ blockSize
  plain : ∀ block ∈ txn.blocks, block.1 < 281474976710656 ∧
    readBe32 (resize blockSize block.2) 0 ≠ journalMagic

section

variable (large : 1024 ≤ blockSize)
include large

theorem dataBlock_eq_iff (data : List UInt8) :
    dataBlock blockSize data = resize blockSize data ↔
      readBe32 (resize blockSize data) 0 ≠ journalMagic := by
  rw [dataBlock]
  split
  next escaped =>
    refine iff_of_false ?_ (not_not_intro escaped.2)
    intro same
    have zero := readBe32_be32 (by decide : 0 < 4294967296) ((resize blockSize data).drop 4)
    rw [same, escaped.2] at zero
    exact absurd zero (by decide)
  next plain =>
    refine iff_of_true rfl fun isMagic => plain ⟨?_, isMagic⟩
    rw [length_resize]
    omega

theorem forall₂_parsedTags (count : Nat) (blocks : List (Nat × List UInt8)) : ∀ index,
    List.Forall₂ (fun parsed block => parsed.1 = block.1 ∧
        unescape parsed.2 (dataBlock blockSize block.2) = resize blockSize block.2)
      (parsedTags count index (blocks.map Prod.fst)) blocks ↔
    ∀ block ∈ blocks, block.1 < 281474976710656 ∧
      readBe32 (resize blockSize block.2) 0 ≠ journalMagic := by
  induction blocks with
  | nil =>
    intro index
    simp [parsedTags]
  | cons block rest induction =>
    intro index
    have number : block.1 % 281474976710656 = block.1 ↔ block.1 < 281474976710656 := by omega
    rw [map_cons, parsedTags, forall₂_cons, induction, forall_mem_cons,
      unescape, if_neg (not_not_intro (tagFlags_even index count)), dataBlock_eq_iff large, number]

omit large in
theorem parseTags_ne_nil {buf : Block} {turns offset : Nat}
    (room : offset + tagSize ≤ buf.length) : parseTags buf (turns + 1) offset ≠ [] := by
  rw [parseTags, if_pos room]
  dsimp only
  split
  next => exact cons_ne_nil _ _
  next => split <;> exact cons_ne_nil _ _

/-- The zeros of an empty descriptor read as tags. -/
theorem Restored.nonempty {txn : Transaction}
    (restored : Restored blockSize txn) : txn.blocks ≠ [] := by
  intro empty
  rw [Restored, empty, forall₂_nil_right_iff, parseDescriptor, descriptorBlock,
    length_resize] at restored
  obtain ⟨turns, rfl⟩ : ∃ turns, blockSize = turns + 1 := ⟨blockSize - 1, by omega⟩
  refine parseTags_ne_nil ?_ restored
  rw [length_resize, tagSize]
  omega

theorem Restored.fits {txn : Transaction} (restored : Restored blockSize txn) :
    28 + tagSize * txn.blocks.length ≤ blockSize := by
  have length := List.Forall₂.length_eq restored
  cases blocks : txn.blocks with
  | nil => exact absurd blocks (restored.nonempty large)
  | cons first others =>
    rw [parseDescriptor_first blocks large, blocks] at length
    rw [length_cons, tagSize]
    by_cases single : others = []
    · rw [single, length_nil]
      omega
    rw [if_neg single, length_cons, length_cons] at length
    have positive := List.length_pos_iff.mpr single
    have bound := parseTags_length (blockSize - 1)
      (List.length_pos_iff.mp (by omega :
        0 < (parseTags (descriptorBlock blockSize txn) (blockSize - 1) 40).length))
    rw [descriptorBlock, length_resize, ← descriptorBlock, tagSize] at bound
    omega

theorem restored_iff (txn : Transaction) :
    Restored blockSize txn ↔ Describable blockSize txn := by
  have parsed (nonempty : txn.blocks ≠ [])
      (fits : 28 + tagSize * txn.blocks.length ≤ blockSize) :
      Restored blockSize txn ↔ ∀ block ∈ txn.blocks, block.1 < 281474976710656 ∧
        readBe32 (resize blockSize block.2) 0 ≠ journalMagic := by
    obtain ⟨first, others, blocks⟩ := exists_cons_of_ne_nil nonempty
    rw [Restored, parseDescriptor_eq blocks large fits, forall₂_parsedTags large]
  constructor
  · intro restored
    have nonempty := restored.nonempty large
    have fits := restored.fits large
    exact ⟨nonempty, fits, (parsed nonempty fits).mp restored⟩
  · intro describable
    exact (parsed describable.nonempty describable.fits).mpr describable.plain

end

/-- A commit writes the descriptor of its transaction first. The descriptor restores
the blocks exactly if it can describe them. -/
theorem commit_descriptor_restored {self : Journal} {txn : Transaction}
    (current : self.current = some txn) (changed : ¬(txn.blocks = [] ∧ txn.revoked = [])) :
    self.commitWrites.head? =
        some (self.recordBlock self.head, descriptorBlock self.blockSize.bytes txn) ∧
      (Restored self.blockSize.bytes txn ↔ Describable self.blockSize.bytes txn) := by
  refine ⟨?_, restored_iff self.blockSize.large txn⟩
  rw [commitWrites, current]
  simp only [Bool.and_eq_true, List.isEmpty_iff, if_neg changed]
  rfl

theorem commit_descriptor_restored_fill :
    (formatted.fillBlock 2).current = some ⟨1, [(2, List.replicate 1024 2)], []⟩ ∧
      Restored 1024 ⟨1, [(2, List.replicate 1024 2)], []⟩ := by
  have settled := (@commit_descriptor_restored (formatted.fillBlock 2)
    ⟨1, [(2, List.replicate 1024 2)], []⟩ rfl fun empty => cons_ne_nil _ _ empty.1).2
  refine ⟨rfl, settled.mpr ⟨cons_ne_nil _ _, by decide, ?_⟩⟩
  intro block member
  rw [mem_singleton.mp member]
  decide +kernel

/-- Data that begins with the magic number is logged without it, under a tag that does
not say so. -/
theorem descriptor_forgets_escape :
    parseDescriptor (descriptorBlock 1024 ⟨1, [(2, be32 journalMagic)], []⟩) = [(2, 8)] ∧
      (unescape 8 (dataBlock 1024 (be32 journalMagic))).take 4 = [0, 0, 0, 0] ∧
      ¬Restored 1024 ⟨1, [(2, be32 journalMagic)], []⟩ := by
  refine ⟨by decide +kernel, by decide +kernel, ?_⟩
  intro restored
  have describable := (restored_iff le_rfl _).mp restored
  exact (describable.plain _ mem_cons_self).2 (by decide +kernel)

end Qunix.Fs.Ext4.Journal
