import Mathlib.Algebra.Order.BigOperators.Group.Finset
import Qunix.Foundation.DyadicBlocks
import Qunix.Memory.Phys.BuddyAlloc

/-! # What the buddy allocator keeps invariant

The bitmaps describe a family of aligned blocks. Every operation is a sequence
of `setFree` and `clrFree`, which insert and erase one block, so the facts about
families of blocks carry the whole argument.
-/

namespace Qunix.Memory.Phys.BuddyAlloc

open Foundation Finset WordBitmap

def blocks (self : BuddyAlloc) : DyadicFamily :=
  fun order index => self.isFree order index = true

def FrameFree (self : BuddyAlloc) (frame : Nat) : Prop :=
  self.blocks.Occupies frame

/-- The frames that the set bits stand for, each bit with its block's size. -/
def freeWeight (self : BuddyAlloc) : Nat :=
  ∑ order ∈ range (maxOrder + 1), 2 ^ order * (self.freeBitmaps order).count maxFrames

/-- The number of blocks of one order, `MAX_FRAMES >> order`. -/
def blockCount (order : Nat) : Nat := maxFrames / 2 ^ order

structure WellFormed (buddy : BuddyAlloc) : Prop where
  bounded : ∀ order index, buddy.blocks order index →
    order ≤ maxOrder ∧ index < blockCount order
  exclusive : buddy.blocks.Exclusive
  coalesced : buddy.blocks.Coalesced maxOrder

structure Invariant (buddy : BuddyAlloc) : Prop extends WellFormed buddy where
  counted : buddy.freeFrames = buddy.freeWeight

/-! ## Block counts -/

variable {self next : BuddyAlloc} {frame index steps top phys order : Nat}

theorem blockCount_succ (below : order < maxOrder) :
    blockCount order = 2 * blockCount (order + 1) := by
  have all : ∀ order < maxOrder, blockCount order = 2 * blockCount (order + 1) := by
    decide
  exact all order below

theorem blockCount_le_maxFrames (order : Nat) : blockCount order ≤ maxFrames :=
  Nat.div_le_self _ _

theorem frame_lt_maxFrames
    (inRange : frame / 2 ^ order < blockCount order) : frame < maxFrames := by
  by_contra outside
  have monotone : maxFrames / 2 ^ order ≤ frame / 2 ^ order :=
    Nat.div_le_div_right (by omega)
  rw [blockCount] at inRange
  omega

theorem WellFormed.frame_lt (wellFormed : self.WellFormed)
    {frame : Nat} (free : self.FrameFree frame) : frame < maxFrames := by
  rcases free with ⟨order, present⟩
  exact frame_lt_maxFrames (wellFormed.bounded _ _ present).2

/-! ## One bit at a time -/

@[simp] theorem setFree_freeFrames (self : BuddyAlloc) (order index : Nat) :
    (self.setFree order index).freeFrames = self.freeFrames := rfl

@[simp] theorem clrFree_freeFrames (self : BuddyAlloc) (order index : Nat) :
    (self.clrFree order index).freeFrames = self.freeFrames := rfl

theorem blocks_setFree (self : BuddyAlloc) (order index : Nat) :
    (self.setFree order index).blocks = self.blocks.insert order index := by
  funext other position
  apply propext
  by_cases same : other = order
  · subst same
    simp [blocks, isFree, setFree, DyadicFamily.insert, test_set]
  · simp [blocks, isFree, setFree, DyadicFamily.insert, same]

theorem blocks_clrFree (self : BuddyAlloc) (order index : Nat) :
    (self.clrFree order index).blocks = self.blocks.erase order index := by
  funext other position
  apply propext
  by_cases same : other = order
  · subst same
    simp [blocks, isFree, clrFree, DyadicFamily.erase, test_clear]
  · simp [blocks, isFree, clrFree, DyadicFamily.erase, same]

private theorem freeWeight_update (self : BuddyAlloc) {order : Nat} (bitmap : WordBitmap)
    (inOrders : order ≤ maxOrder) :
    freeWeight { self with freeBitmaps := Function.update self.freeBitmaps order bitmap } +
        2 ^ order * (self.freeBitmaps order).count maxFrames =
      self.freeWeight + 2 ^ order * bitmap.count maxFrames := by
  have member : order ∈ range (maxOrder + 1) := mem_range.mpr (by omega)
  simp only [freeWeight]
  rw [← add_sum_erase _ _ member, ← add_sum_erase _ _ member]
  have others : ∑ other ∈ (range (maxOrder + 1)).erase order,
        2 ^ other * (Function.update self.freeBitmaps order bitmap other).count maxFrames =
      ∑ other ∈ (range (maxOrder + 1)).erase order,
        2 ^ other * (self.freeBitmaps other).count maxFrames := by
    apply sum_congr rfl
    intro other memberErase
    rw [Function.update_of_ne (ne_of_mem_erase memberErase)]
  rw [Function.update_self]
  omega

theorem freeWeight_setFree (inOrders : order ≤ maxOrder) (inRange : index < blockCount order)
    (absent : ¬self.blocks order index) :
    (self.setFree order index).freeWeight = self.freeWeight + 2 ^ order := by
  have updated := self.freeWeight_update ((self.freeBitmaps order).set index) inOrders
  have inBitmap : index < maxFrames := lt_of_lt_of_le inRange (blockCount_le_maxFrames order)
  have unset : (self.freeBitmaps order).test index = false := by
    simpa [blocks, isFree] using absent
  rw [count_set inBitmap unset, mul_add] at updated
  rw [setFree]
  omega

theorem freeWeight_clrFree (inOrders : order ≤ maxOrder) (inRange : index < blockCount order)
    (present : self.blocks order index) :
    (self.clrFree order index).freeWeight + 2 ^ order = self.freeWeight := by
  have updated := self.freeWeight_update ((self.freeBitmaps order).clear index) inOrders
  have inBitmap : index < maxFrames := lt_of_lt_of_le inRange (blockCount_le_maxFrames order)
  rw [← count_clear inBitmap present, mul_add] at updated
  rw [clrFree]
  omega

theorem WellFormed.setFree (wellFormed : self.WellFormed)
    {order index : Nat} (inOrders : order ≤ maxOrder) (inRange : index < blockCount order)
    (vacant : self.blocks.Vacant order index)
    (noBuddy : order < maxOrder → ¬self.blocks order (index ^^^ 1)) :
    (self.setFree order index).WellFormed := by
  refine ⟨?_, ?_, ?_⟩
  · rw [blocks_setFree]
    intro other position present
    rcases present with ⟨sameOrder, sameIndex⟩ | present
    · subst other position
      exact ⟨inOrders, inRange⟩
    · exact wellFormed.bounded other position present
  · rw [blocks_setFree]
    exact wellFormed.exclusive.insert vacant
  · rw [blocks_setFree]
    exact wellFormed.coalesced.insert noBuddy

theorem WellFormed.clrFree (wellFormed : self.WellFormed)
    (order index : Nat) : (self.clrFree order index).WellFormed := by
  refine ⟨?_, ?_, ?_⟩
  · rw [blocks_clrFree]
    intro other position present
    exact wellFormed.bounded other position present.2
  · rw [blocks_clrFree]
    exact wellFormed.exclusive.erase
  · rw [blocks_clrFree]
    exact wellFormed.coalesced.erase

theorem frameFree_setFree (self : BuddyAlloc) (order index frame : Nat) :
    (self.setFree order index).FrameFree frame ↔
      frame / 2 ^ order = index ∨ self.FrameFree frame := by
  rw [FrameFree, blocks_setFree, DyadicFamily.occupies_insert, FrameFree]

theorem frameFree_clrFree (wellFormed : self.WellFormed)
    {order index : Nat} (present : self.blocks order index) (frame : Nat) :
    (self.clrFree order index).FrameFree frame ↔
      self.FrameFree frame ∧ frame / 2 ^ order ≠ index := by
  rw [FrameFree, blocks_clrFree,
    DyadicFamily.occupies_erase wellFormed.exclusive present, FrameFree]

/-! ## The split loop -/

theorem splitDown_index (self : BuddyAlloc) (order steps current : Nat) :
    (self.splitDown order steps current).2 = current * 2 ^ steps := by
  induction steps generalizing self current with
  | zero => simp [splitDown]
  | succ steps induction =>
    rw [splitDown, induction, Nat.pow_succ', mul_assoc]

theorem splitDown_freeFrames (self : BuddyAlloc) (order steps current : Nat) :
    (self.splitDown order steps current).1.freeFrames = self.freeFrames := by
  induction steps generalizing self current with
  | zero => rfl
  | succ steps induction =>
    rw [splitDown, induction, setFree_freeFrames]

theorem WellFormed.freeRightHalf {current : Nat} (wellFormed : self.WellFormed)
    (below : order < maxOrder) (inRange : current < blockCount (order + 1))
    (vacant : self.blocks.Vacant (order + 1) current) :
    (self.setFree order (current * 2 + 1)).WellFormed ∧
    (self.setFree order (current * 2 + 1)).freeWeight = self.freeWeight + 2 ^ order ∧
    (self.setFree order (current * 2 + 1)).blocks.Vacant order (current * 2) := by
  have halves := blockCount_succ below
  have rightRange : current * 2 + 1 < blockCount order := by omega
  have rightVacant := vacant.right_half
  have buddyIndex : (current * 2 + 1) ^^^ 1 = current * 2 := by
    have quotient := xor_one_div_two (current * 2 + 1)
    have parity := Nat.xor_mod_two_eq (m := current * 2 + 1) (n := 1)
    omega
  have noBuddy : order < maxOrder → ¬self.blocks order ((current * 2 + 1) ^^^ 1) := by
    intro _
    rw [buddyIndex]
    exact vacant.left_half.not_mem
  refine ⟨wellFormed.setFree (by omega) rightRange rightVacant noBuddy,
    freeWeight_setFree (by omega) rightRange rightVacant.not_mem, ?_⟩
  intro frame inLeft occupied
  rcases (self.frameFree_setFree _ _ frame).mp occupied with inRight | free
  · omega
  · exact vacant.left_half frame inLeft free

theorem div_of_leftmost
    (leftmost : frame / 2 ^ order = index * 2 ^ steps) : frame / 2 ^ (order + steps) = index := by
  rw [pow_add, ← Nat.div_div_eq_div_mul, leftmost, Nat.mul_div_cancel _ (Nat.two_pow_pos steps)]

theorem splitDown_spec (self : BuddyAlloc) (order steps current : Nat)
    (wellFormed : self.WellFormed) (inOrders : order + steps ≤ maxOrder)
    (inRange : current < blockCount (order + steps))
    (vacant : self.blocks.Vacant (order + steps) current) :
    (self.splitDown order steps current).1.WellFormed ∧
    (self.splitDown order steps current).1.freeWeight + 2 ^ order =
      self.freeWeight + 2 ^ (order + steps) ∧
    ∀ frame, (self.splitDown order steps current).1.FrameFree frame ↔
      self.FrameFree frame ∨ (frame / 2 ^ (order + steps) = current ∧
        frame / 2 ^ order ≠ current * 2 ^ steps) := by
  induction steps generalizing self current with
  | zero =>
    refine ⟨wellFormed, rfl, ?_⟩
    intro frame
    simp only [splitDown, add_zero, pow_zero, mul_one]
    tauto
  | succ steps induction =>
    have below : order + steps < maxOrder := by omega
    rcases wellFormed.freeRightHalf below inRange vacant with
      ⟨markedWellFormed, markedWeight, leftVacant⟩
    have leftRange : current * 2 < blockCount (order + steps) := by
      have halves := blockCount_succ below
      rw [← add_assoc] at inRange
      omega
    rcases induction _ (current * 2) markedWellFormed (by omega) leftRange leftVacant with
      ⟨splitWellFormed, splitWeight, splitFree⟩
    have doubled : 2 ^ (order + (steps + 1)) = 2 ^ (order + steps) + 2 ^ (order + steps) := by
      rw [← add_assoc]
      omega
    refine ⟨splitWellFormed, ?_, ?_⟩
    · rw [splitDown, splitWeight, markedWeight, doubled, add_assoc]
    · intro frame
      have halvesIff := mem_halves_iff frame (order + steps) current
      have markedIff := self.frameFree_setFree (order + steps) (current * 2 + 1) frame
      have leftmost : current * 2 ^ (steps + 1) = current * 2 * 2 ^ steps := by
        rw [Nat.pow_succ', mul_assoc]
      rw [splitDown, splitFree, markedIff, leftmost, ← add_assoc, halvesIff]
      constructor
      · intro free
        rcases free with (inRight | free) | ⟨inLeft, notLeftmost⟩
        · refine .inr ⟨.inr inRight, ?_⟩
          intro atLeftmost
          have inLeft := div_of_leftmost atLeftmost
          omega
        · exact .inl free
        · exact .inr ⟨.inl inLeft, notLeftmost⟩
      · intro free
        rcases free with free | ⟨inLeft | inRight, notLeftmost⟩
        · exact .inl (.inr free)
        · exact .inr ⟨inLeft, notLeftmost⟩
        · exact .inl (.inl inRight)

/-! ## The merge loop -/

theorem coalesce_freeFrames (turns : Nat) (self : BuddyAlloc) (order index : Nat) :
    (coalesce turns self order index).freeFrames = self.freeFrames := by
  induction turns generalizing self order index with
  | zero => rfl
  | succ turns induction =>
    simp only [coalesce]
    split
    · rfl
    · rw [induction, clrFree_freeFrames]

private theorem setFree_spec (wellFormed : self.WellFormed) (inOrders : order ≤ maxOrder)
    (inRange : index < blockCount order) (vacant : self.blocks.Vacant order index)
    (noBuddy : order < maxOrder → ¬self.blocks order (index ^^^ 1)) :
    (self.setFree order index).WellFormed ∧
    (self.setFree order index).freeWeight = self.freeWeight + 2 ^ order ∧
    ∀ frame, (self.setFree order index).FrameFree frame ↔
      self.FrameFree frame ∨ frame / 2 ^ order = index := by
  refine ⟨wellFormed.setFree inOrders inRange vacant noBuddy,
    freeWeight_setFree inOrders inRange vacant.not_mem, ?_⟩
  intro frame
  rw [frameFree_setFree, or_comm]

/-- Merging a vacant block frees exactly its frames, whatever order the merged
block ends up at. -/
theorem coalesce_spec (turns : Nat) (self : BuddyAlloc) (order index : Nat)
    (wellFormed : self.WellFormed) (enough : order + turns = maxOrder)
    (inRange : index < blockCount order) (vacant : self.blocks.Vacant order index) :
    (coalesce turns self order index).WellFormed ∧
    (coalesce turns self order index).freeWeight = self.freeWeight + 2 ^ order ∧
    ∀ frame, (coalesce turns self order index).FrameFree frame ↔
      self.FrameFree frame ∨ frame / 2 ^ order = index := by
  induction turns generalizing self order index with
  | zero => exact setFree_spec wellFormed (by omega) inRange vacant fun below => by omega
  | succ turns induction =>
    simp only [coalesce]
    split
    next stop =>
      apply setFree_spec wellFormed (by omega) inRange vacant
      intro below present
      have notFree : self.isFree order (index ^^^ 1) = false := by
        simpa [Nat.not_le.mpr below] using stop
      rw [blocks, notFree] at present
      exact Bool.false_ne_true present
    next climb =>
      have parts : order < maxOrder ∧ self.blocks order (index ^^^ 1) := by
        simpa [blocks] using climb
      rcases parts with ⟨below, present⟩
      have halves := blockCount_succ below
      have buddyRange : index ^^^ 1 < blockCount order := by
        rw [halves] at inRange ⊢
        exact xor_one_lt_of_lt_even inRange
      let cleared := self.clrFree order (index ^^^ 1)
      have clearedIff := frameFree_clrFree wellFormed present
      have leftVacant : cleared.blocks.Vacant order index := by
        intro frame inside occupied
        exact vacant frame inside ((clearedIff frame).mp occupied).1
      have rightVacant : cleared.blocks.Vacant order (index ^^^ 1) := by
        intro frame inside occupied
        exact ((clearedIff frame).mp occupied).2 inside
      have clearedWellFormed : cleared.WellFormed := wellFormed.clrFree _ _
      have parentRange : index / 2 < blockCount (order + 1) := by omega
      have parentVacant := leftVacant.parent rightVacant
      have clearedWeight : cleared.freeWeight + 2 ^ order = self.freeWeight :=
        freeWeight_clrFree (by omega) buddyRange present
      rcases induction cleared (order + 1) (index / 2) clearedWellFormed (by omega)
        parentRange parentVacant with
        ⟨mergedWellFormed, mergedWeight, mergedFree⟩
      refine ⟨mergedWellFormed, ?_, ?_⟩
      · rw [mergedWeight]
        omega
      · intro frame
        rw [mergedFree, clearedIff, mem_parent_iff]
        constructor
        · intro free
          rcases free with ⟨free, _⟩ | inside | inBuddy
          · exact .inl free
          · exact .inr inside
          · exact .inl ⟨order, inBuddy ▸ present⟩
        · intro free
          rcases free with free | inside
          · by_cases inBuddy : frame / 2 ^ order = index ^^^ 1
            · exact .inr (.inr inBuddy)
            · exact .inl ⟨free, inBuddy⟩
          · exact .inr (.inl inside)

theorem freeWeight_lt (self : BuddyAlloc) : self.freeWeight < 2 ^ 33 := by
  have bits : ∀ order, (self.freeBitmaps order).count maxFrames ≤ maxFrames := by
    intro order
    exact (card_filter_le _ _).trans (card_range _).le
  calc self.freeWeight
      ≤ ∑ order ∈ range (maxOrder + 1), 2 ^ order * maxFrames :=
        sum_le_sum fun order _ => Nat.mul_le_mul_left _ (bits order)
    _ < 2 ^ 33 := by decide

/-! ## The operations -/

theorem findFree_some (found : self.findFree order = some index) : self.blocks order index :=
  firstSetFrom_some found

private theorem leftmost_lt_blockCount
    (inOrders : order + steps ≤ maxOrder) (inRange : top < blockCount (order + steps)) :
    top * 2 ^ steps < blockCount order := by
  have all : ∀ order ≤ maxOrder, ∀ steps ≤ maxOrder, order + steps ≤ maxOrder →
      blockCount order = blockCount (order + steps) * 2 ^ steps := by decide
  rw [all order (by omega) steps (by omega) inOrders]
  exact Nat.mul_lt_mul_of_pos_right inRange (Nat.two_pow_pos steps)

theorem splitDown_clrFree_spec
    (wellFormed : self.WellFormed) (present : self.blocks (order + steps) top) :
    ((self.clrFree (order + steps) top).splitDown order steps top).1.WellFormed ∧
    ((self.clrFree (order + steps) top).splitDown order steps top).1.freeWeight + 2 ^ order =
      self.freeWeight ∧
    ∀ frame, ((self.clrFree (order + steps) top).splitDown order steps top).1.FrameFree frame ↔
      self.FrameFree frame ∧ frame / 2 ^ order ≠ top * 2 ^ steps := by
  have topBounds := wellFormed.bounded _ _ present
  have clearedIff := frameFree_clrFree wellFormed present
  have clearedWeight := freeWeight_clrFree topBounds.1 topBounds.2 present
  have clearedVacant : (self.clrFree (order + steps) top).blocks.Vacant (order + steps) top :=
    fun frame inside occupied => ((clearedIff frame).mp occupied).2 inside
  rcases (self.clrFree (order + steps) top).splitDown_spec order steps top
    (wellFormed.clrFree _ _) topBounds.1 topBounds.2 clearedVacant with
    ⟨splitWellFormed, splitWeight, splitFree⟩
  refine ⟨splitWellFormed, splitWeight.trans clearedWeight, ?_⟩
  intro frame
  have inside : frame / 2 ^ order = top * 2 ^ steps → frame / 2 ^ (order + steps) = top :=
    div_of_leftmost
  have wasFree : frame / 2 ^ (order + steps) = top → self.FrameFree frame :=
    fun atTop => ⟨order + steps, atTop ▸ present⟩
  rw [splitFree, clearedIff]
  tauto

/-- What `alloc` does when it succeeds: it returns the address of an aligned
block all of whose frames were free, and exactly these stop being free. -/
structure Allocates (before next : BuddyAlloc) (order phys index : Nat) : Prop where
  address : phys = index * 2 ^ order * pageSize
  inRange : index < blockCount order
  inOrders : order ≤ maxOrder
  invariant : next.Invariant
  freeFrames : next.freeFrames + 2 ^ order = before.freeFrames
  wasFree : ∀ frame, frame / 2 ^ order = index → before.FrameFree frame
  frameFree : ∀ frame, next.FrameFree frame ↔
    before.FrameFree frame ∧ frame / 2 ^ order ≠ index

theorem allocFrom_some {found remaining : Nat} (invariant : self.Invariant) (above : order ≤ found)
    (allocated : self.allocFrom order found remaining = (some phys, next)) :
    ∃ index, self.Allocates next order phys index := by
  induction remaining generalizing found with
  | zero => simp [allocFrom] at allocated
  | succ remaining induction =>
    rw [allocFrom] at allocated
    cases search : self.findFree found with
    | none =>
      rw [search] at allocated
      exact induction (by omega) allocated
    | some top =>
      rw [search] at allocated
      rcases exists_add_of_le above with ⟨steps, foundEq⟩
      subst foundEq
      have present := findFree_some search
      have topBounds := invariant.bounded _ _ present
      rcases splitDown_clrFree_spec invariant.toWellFormed present with
        ⟨splitWellFormed, splitWeight, splitFree⟩
      have splitFrames :=
        (self.clrFree (order + steps) top).splitDown_freeFrames order steps top
      have splitIndex := (self.clrFree (order + steps) top).splitDown_index order steps top
      have counted := invariant.counted
      simp only [add_tsub_cancel_left] at allocated
      generalize (self.clrFree (order + steps) top).splitDown order steps top = split
        at allocated splitWellFormed splitWeight splitFree splitFrames splitIndex
      have sameFrames : split.1.freeFrames = self.freeFrames := splitFrames
      have enough : 2 ^ order ≤ split.1.freeFrames := by omega
      rw [if_pos enough, Prod.mk.injEq, Option.some.injEq, splitIndex] at allocated
      rcases allocated with ⟨physEq, nextEq⟩
      subst nextEq
      refine ⟨top * 2 ^ steps, physEq.symm,
        leftmost_lt_blockCount topBounds.1 topBounds.2, by omega, ?_, ?_, ?_, splitFree⟩
      · refine ⟨⟨splitWellFormed.bounded, splitWellFormed.exclusive,
          splitWellFormed.coalesced⟩, ?_⟩
        change split.1.freeFrames - 2 ^ order = split.1.freeWeight
        omega
      · change split.1.freeFrames - 2 ^ order + 2 ^ order = self.freeFrames
        omega
      · intro frame inside
        exact ⟨order + steps, div_of_leftmost inside ▸ present⟩

theorem alloc_some (invariant : self.Invariant) (allocated : self.alloc order = (some phys, next)) :
    ∃ index, self.Allocates next order phys index :=
  allocFrom_some invariant le_rfl allocated

theorem alloc_none (failed : self.alloc order = (none, next)) : next = self := by
  have search : ∀ found remaining,
      self.allocFrom order found remaining = (none, next) → next = self := by
    intro found remaining failed
    induction remaining generalizing found with
    | zero =>
      rw [Prod.mk.injEq] at failed
      exact failed.2.symm
    | succ remaining induction =>
      rw [allocFrom] at failed
      cases found : self.findFree found with
      | none =>
        rw [found] at failed
        exact induction _ failed
      | some top => simp [found] at failed
  exact search _ _ failed

/-- `free` may be given any aligned block of frames none of which is free. -/
theorem free_spec (invariant : self.Invariant)
    (inOrders : order ≤ maxOrder) (inRange : phys / pageSize < maxFrames)
    (taken : ∀ frame, frame / 2 ^ order = phys / pageSize / 2 ^ order →
      ¬self.FrameFree frame) :
    (self.free phys order).Invariant ∧
    (self.free phys order).freeFrames = self.freeFrames + 2 ^ order ∧
    ∀ frame, (self.free phys order).FrameFree frame ↔
      self.FrameFree frame ∨ frame / 2 ^ order = phys / pageSize / 2 ^ order := by
  let credited : BuddyAlloc := { self with freeFrames := self.freeFrames + 2 ^ order }
  have creditedWellFormed : credited.WellFormed :=
    ⟨invariant.bounded, invariant.exclusive, invariant.coalesced⟩
  have indexRange : phys / pageSize / 2 ^ order < blockCount order := by
    have all : ∀ order ≤ maxOrder, 2 ^ order * blockCount order = maxFrames := by decide
    rw [Nat.div_lt_iff_lt_mul (Nat.two_pow_pos order), mul_comm, all order inOrders]
    exact inRange
  rcases coalesce_spec (maxOrder - order) credited order (phys / pageSize / 2 ^ order)
    creditedWellFormed (by omega) indexRange taken with
    ⟨mergedWellFormed, mergedWeight, mergedFree⟩
  have frames : (self.free phys order).freeFrames = self.freeFrames + 2 ^ order :=
    coalesce_freeFrames _ _ _ _
  refine ⟨⟨mergedWellFormed, ?_⟩, frames, mergedFree⟩
  have counted := invariant.counted
  have weight : (self.free phys order).freeWeight = self.freeWeight + 2 ^ order := mergedWeight
  omega

theorem new_blocks (order index : Nat) : ¬new.blocks order index := by
  simp [blocks, isFree, new]

theorem new_frameFree (frame : Nat) : ¬new.FrameFree frame := by
  intro free
  rcases free with ⟨order, present⟩
  exact new_blocks _ _ present

theorem new_invariant : new.Invariant := by
  refine ⟨⟨?_, ?_, ?_⟩, ?_⟩
  · intro order index present
    exact absurd present (new_blocks order index)
  · intro frame left right atLeft
    exact absurd atLeft (new_blocks _ _)
  · intro order index _ present
    exact absurd present (new_blocks order index)
  · simp [freeWeight, new]

/-- What making the frames `first .. first + count` free does to the
allocator. -/
structure Frees (before next : BuddyAlloc) (first count : Nat) : Prop where
  invariant : next.Invariant
  freeFrames : next.freeFrames = before.freeFrames + count
  frameFree : ∀ frame, next.FrameFree frame ↔
    before.FrameFree frame ∨ (first ≤ frame ∧ frame < first + count)

theorem freeEach_spec (self : BuddyAlloc) (first count : Nat) (invariant : self.Invariant)
    (taken : ∀ frame, first ≤ frame → frame < first + count →
      frame < maxFrames ∧ ¬self.FrameFree frame) :
    self.Frees (self.freeEach first count) first count := by
  induction count generalizing self first with
  | zero =>
    refine ⟨invariant, rfl, ?_⟩
    intro frame
    constructor
    · exact .inl
    · intro free
      rcases free with free | ⟨lower, upper⟩
      · exact free
      · omega
  | succ count induction =>
    have frameOf : first * pageSize / pageSize = first :=
      Nat.mul_div_cancel _ (by decide)
    have takenFirst := taken first le_rfl (by omega)
    rcases @free_spec self (first * pageSize) 0 invariant (by decide)
      (frameOf.symm ▸ takenFirst.1) (by
      intro frame inside
      simp only [frameOf, pow_zero, Nat.div_one] at inside
      exact inside ▸ takenFirst.2) with
      ⟨freedInvariant, freedFrames, freedFree⟩
    simp only [frameOf, pow_zero, Nat.div_one] at freedFree
    have rest := induction (self.free (first * pageSize) 0) (first + 1) freedInvariant (by
      intro frame lower upper
      have takenFrame := taken frame (by omega) (by omega)
      refine ⟨takenFrame.1, fun free => ?_⟩
      rcases (freedFree frame).mp free with free | here
      · exact takenFrame.2 free
      · omega)
    refine ⟨rest.invariant, ?_, ?_⟩
    · rw [freeEach, rest.freeFrames]
      omega
    · intro frame
      rw [freeEach, rest.frameFree, freedFree, or_assoc]
      have range : (frame = first ∨ first + 1 ≤ frame ∧ frame < first + 1 + count) ↔
          (first ≤ frame ∧ frame < first + (count + 1)) := by omega
      rw [range]

theorem addRange_spec (self : BuddyAlloc) (first count : Nat) (invariant : self.Invariant)
    (taken : ∀ frame, first ≤ frame → frame < first + count →
      frame < maxFrames ∧ ¬self.FrameFree frame) :
    self.Frees (self.addRange first count) first count := by
  rcases self.freeEach_spec first count invariant taken with
    ⟨addedInvariant, addedFrames, addedFree⟩
  exact ⟨⟨⟨addedInvariant.bounded, addedInvariant.exclusive, addedInvariant.coalesced⟩,
    addedInvariant.counted⟩, addedFrames, addedFree⟩

end Qunix.Memory.Phys.BuddyAlloc
