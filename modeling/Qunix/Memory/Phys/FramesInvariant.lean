import Qunix.Memory.Phys.BuddyInvariant
import Qunix.Memory.Phys.Magazines

/-! # What the frame API keeps invariant

A free frame is either in the buddy allocator's bitmaps or cached in exactly one
slot of one magazine. Refilling and draining only move frames between the two
places, so the set of free frames changes by the frame handed out or returned
and by nothing else.
-/

namespace Qunix.Memory.Phys

open Function Multiset Nat

/-! ## A buddy allocator with a stock of cached frames -/

/-- The frame is in the buddy allocator or its address is in the stock. -/
def FreeIn (buddy : BuddyAlloc) (stock : Multiset Nat) (frame : Nat) : Prop :=
  buddy.FrameFree frame ∨ frame * pageSize ∈ stock

structure Stocked (buddy : BuddyAlloc) (stock : Multiset Nat) : Prop where
  invariant : buddy.Invariant
  zeroTaken : ¬buddy.FrameFree 0
  nodup : stock.Nodup
  cached : ∀ phys ∈ stock, ∃ frame, phys = frame * pageSize ∧ 0 < frame ∧
    frame < maxFrames ∧ ¬buddy.FrameFree frame

theorem address_injective {left right : Nat} (equal : left * pageSize = right * pageSize) :
    left = right :=
  eq_of_mul_eq_mul_right (by decide) equal

@[simp] theorem address_div (frame : Nat) : frame * pageSize / pageSize = frame :=
  Nat.mul_div_cancel _ (by decide)

namespace Stocked

variable {buddy next : BuddyAlloc} {stock : Multiset Nat} {phys frame order index : Nat}

section

variable (stocked : Stocked buddy stock)
include stocked

theorem freeIn_bounds (free : FreeIn buddy stock frame) :
    0 < frame ∧ frame < maxFrames := by
  rcases free with free | cached
  · refine ⟨pos_of_ne_zero fun zero => ?_, stocked.invariant.frame_lt free⟩
    exact stocked.zeroTaken (zero ▸ free)
  · rcases stocked.cached _ cached with ⟨other, equal, positive, below, _⟩
    rw [address_injective equal]
    exact ⟨positive, below⟩

omit stocked in
theorem handOut (stocked : Stocked buddy (frame * pageSize ::ₘ stock)) :
    Stocked buddy stock ∧
    ∀ other, FreeIn buddy stock other ↔
      FreeIn buddy (frame * pageSize ::ₘ stock) other ∧ other ≠ frame := by
  have nodup := Multiset.nodup_cons.mp stocked.nodup
  rcases stocked.cached _ (mem_cons_self _ _) with
    ⟨cachedFrame, address, _, _, notFree⟩
  rw [← address_injective address] at notFree
  refine ⟨⟨stocked.invariant, stocked.zeroTaken, nodup.2, ?_⟩, ?_⟩
  · intro member inStock
    exact stocked.cached member (mem_cons_of_mem inStock)
  · intro other
    simp only [FreeIn, mem_cons]
    constructor
    · intro free
      rcases free with free | inStock
      · exact ⟨.inl free, fun same => notFree (same ▸ free)⟩
      · exact ⟨.inr (.inr inStock), fun same => nodup.1 (same ▸ inStock)⟩
    · intro both
      rcases both with ⟨free | same | inStock, different⟩
      · exact .inl free
      · exact absurd (address_injective same) different
      · exact .inr inStock

theorem keep (positive : 0 < frame)
    (below : frame < maxFrames) (taken : ¬FreeIn buddy stock frame) :
    Stocked buddy (frame * pageSize ::ₘ stock) ∧
    ∀ other, FreeIn buddy (frame * pageSize ::ₘ stock) other ↔
      FreeIn buddy stock other ∨ other = frame := by
  refine ⟨⟨stocked.invariant, stocked.zeroTaken, ?_, ?_⟩, ?_⟩
  · exact Multiset.nodup_cons.mpr ⟨fun inStock => taken (.inr inStock), stocked.nodup⟩
  · intro member isMember
    rcases mem_cons.mp isMember with equal | inStock
    · exact ⟨frame, equal, positive, below, fun free => taken (.inl free)⟩
    · exact stocked.cached member inStock
  · intro other
    have sameAddress : other * pageSize = frame * pageSize ↔ other = frame :=
      ⟨address_injective, fun equal => equal ▸ rfl⟩
    rw [FreeIn, mem_cons, sameAddress, FreeIn, or_assoc, @or_comm (other = frame)]

theorem alloc (allocates : buddy.Allocates next order phys index) :
    Stocked next stock ∧
    ∀ frame, FreeIn next stock frame ↔
      FreeIn buddy stock frame ∧ ¬frame / 2 ^ order = index := by
  refine ⟨⟨allocates.invariant, ?_, stocked.nodup, ?_⟩, ?_⟩
  · intro free
    exact stocked.zeroTaken ((allocates.frameFree 0).mp free).1
  · intro member inStock
    rcases stocked.cached member inStock with ⟨frame, address, positive, below, notFree⟩
    exact ⟨frame, address, positive, below,
      fun free => notFree ((allocates.frameFree frame).mp free).1⟩
  · intro frame
    constructor
    · intro free
      rcases free with free | inStock
      · have parts := (allocates.frameFree frame).mp free
        exact ⟨.inl parts.1, parts.2⟩
      · rcases stocked.cached _ inStock with ⟨cachedFrame, address, _, _, notFree⟩
        rw [← address_injective address] at notFree
        exact ⟨.inr inStock, fun inside => notFree (allocates.wasFree frame inside)⟩
    · intro both
      rcases both with ⟨free | inStock, outside⟩
      · exact .inl ((allocates.frameFree frame).mpr ⟨free, outside⟩)
      · exact .inr inStock

theorem free (inOrders : order ≤ maxOrder) (inRange : phys / pageSize < maxFrames)
    (taken : ∀ frame, frame / 2 ^ order = phys / pageSize / 2 ^ order →
      0 < frame ∧ ¬FreeIn buddy stock frame) :
    Stocked (buddy.free phys order) stock ∧
    (buddy.free phys order).freeFrames = buddy.freeFrames + 2 ^ order ∧
    ∀ frame, FreeIn (buddy.free phys order) stock frame ↔
      FreeIn buddy stock frame ∨ frame / 2 ^ order = phys / pageSize / 2 ^ order := by
  rcases BuddyAlloc.free_spec stocked.invariant inOrders inRange
      (fun frame inside free => (taken frame inside).2 (.inl free)) with
    ⟨freedInvariant, freedFrames, freedFree⟩
  refine ⟨⟨freedInvariant, ?_, stocked.nodup, ?_⟩, freedFrames, ?_⟩
  · intro free
    rcases (freedFree 0).mp free with free | inside
    · exact stocked.zeroTaken free
    · exact absurd (taken 0 inside).1 (lt_irrefl 0)
  · intro member inStock
    rcases stocked.cached member inStock with ⟨frame, address, positive, below, notFree⟩
    refine ⟨frame, address, positive, below, fun free => ?_⟩
    rcases (freedFree frame).mp free with free | inside
    · exact notFree free
    · exact (taken frame inside).2 (.inr (address ▸ inStock))
  · intro frame
    rw [FreeIn, freedFree, FreeIn, or_assoc, or_assoc, @or_comm (frame / 2 ^ order = _)]

theorem take (allocated : buddy.alloc 0 = (some phys, next)) :
    Stocked next (phys ::ₘ stock) ∧ next.freeFrames + 1 = buddy.freeFrames ∧
    ∀ other, FreeIn next (phys ::ₘ stock) other ↔ FreeIn buddy stock other := by
  rcases BuddyAlloc.alloc_some stocked.invariant allocated with ⟨taken, allocates⟩
  have address : phys = taken * pageSize := by simpa using allocates.address
  have wasFree : FreeIn buddy stock taken := .inl (allocates.wasFree taken (by simp))
  have bounds := stocked.freeIn_bounds wasFree
  rcases stocked.alloc allocates with ⟨allocatedStock, remaining⟩
  simp only [pow_zero, Nat.div_one] at remaining
  rcases allocatedStock.keep bounds.1 bounds.2 (fun free => ((remaining taken).mp free).2 rfl)
    with ⟨kept, freeIn⟩
  subst address
  refine ⟨kept, by simpa using allocates.freeFrames, ?_⟩
  intro other
  rw [freeIn, remaining]
  by_cases same : other = taken
  · simp [same, wasFree]
  · simp [same]

end

theorem giveBack (stocked : Stocked buddy (phys ::ₘ stock)) :
    Stocked (buddy.free phys 0) stock ∧
    (buddy.free phys 0).freeFrames = buddy.freeFrames + 1 ∧
    ∀ other, FreeIn (buddy.free phys 0) stock other ↔
      FreeIn buddy (phys ::ₘ stock) other := by
  rcases stocked.cached phys (mem_cons_self _ _) with
    ⟨returned, rfl, positive, below, _⟩
  have wasFree : FreeIn buddy (returned * pageSize ::ₘ stock) returned :=
    .inr (mem_cons_self _ _)
  rcases stocked.handOut with ⟨handedOut, remaining⟩
  rcases @free _ _ (returned * pageSize) 0 handedOut (by decide) (by simpa using below)
    (by simpa [remaining] using positive) with ⟨freed, frames, freeIn⟩
  refine ⟨freed, frames, ?_⟩
  intro other
  rw [freeIn, remaining]
  by_cases same : other = returned
  · simp [same, wasFree]
  · simp [same]

end Stocked

/-! ## Magazines as stacks -/

namespace Magazine

def contents (self : Magazine) : Multiset Nat :=
  ((List.range self.top).map self.frames : List Nat)

@[simp] theorem card_contents (self : Magazine) :
    card self.contents = self.top := by
  simp [contents]

@[simp] theorem contents_new : new.contents = 0 := rfl

variable {self : Magazine}

theorem contents_push (room : self.top < magazineSize) (phys : Nat) :
    (self.push phys).1 = true ∧ (self.push phys).2.top = self.top + 1 ∧
    (self.push phys).2.contents = phys ::ₘ self.contents := by
  have notFull : ¬self.top ≥ magazineSize := by omega
  have below : (List.range self.top).map (Function.update self.frames self.top phys) =
      (List.range self.top).map self.frames := by
    apply List.map_congr_left
    intro index member
    have different : index ≠ self.top := Nat.ne_of_lt (List.mem_range.mp member)
    exact update_of_ne different _ _
  refine ⟨by simp [push, notFull], by simp [push, notFull], ?_⟩
  simp only [push, notFull, if_false, contents, List.range_succ, List.map_append, below,
    List.map_cons, List.map_nil, update_self]
  rw [← coe_add, add_comm]
  rfl

theorem push_of_full (full : magazineSize ≤ self.top) (phys : Nat) :
    self.push phys = (false, self) := by
  simp [push, full]

theorem pop_of_empty (empty : self.top = 0) : self.pop = (0, self) := by
  simp [pop, empty]

theorem contents_pop (nonempty : 0 < self.top) :
    self.pop.2.top + 1 = self.top ∧ self.contents = self.pop.1 ::ₘ self.pop.2.contents := by
  rcases exists_eq_succ_of_ne_zero (ne_of_gt nonempty) with ⟨rest, topEq⟩
  refine ⟨by simp [pop, topEq], ?_⟩
  simp only [pop, topEq, contents, List.range_succ, List.map_append,
    succ_eq_add_one, Nat.add_sub_cancel, beq_iff_eq, Nat.add_eq_zero_iff, Nat.one_ne_zero,
    and_false, if_false, List.map_cons, List.map_nil]
  rw [← coe_add, add_comm]
  rfl

end Magazine

/-! ## Moving frames between the buddy allocator and one magazine -/

/-- Frames moved between a buddy allocator and a magazine, beside the rest of
the stock: nothing became free or stopped being free. -/
structure Shifted (rest : Multiset Nat) (before after : BuddyAlloc × Magazine) : Prop where
  stocked : Stocked after.1 (after.2.contents + rest)
  bounded : after.2.top ≤ magazineSize
  total : after.1.freeFrames + after.2.top = before.1.freeFrames + before.2.top
  freeIn : ∀ frame, FreeIn after.1 (after.2.contents + rest) frame ↔
    FreeIn before.1 (before.2.contents + rest) frame

namespace Shifted

variable {rest : Multiset Nat} {buddy : BuddyAlloc} {magazine : Magazine}

section

variable (stocked : Stocked buddy (magazine.contents + rest))
include stocked

theorem refl (bounded : magazine.top ≤ magazineSize) :
    Shifted rest (buddy, magazine) (buddy, magazine) :=
  ⟨stocked, bounded, rfl, fun _ => Iff.rfl⟩

omit stocked in
theorem trans {first second third : BuddyAlloc × Magazine}
    (left : Shifted rest first second) (right : Shifted rest second third) :
    Shifted rest first third :=
  ⟨right.stocked, right.bounded, right.total.trans left.total,
    fun frame => (right.freeIn frame).trans (left.freeIn frame)⟩

theorem push (room : magazine.top < magazineSize) {phys : Nat} {next : BuddyAlloc}
    (allocated : buddy.alloc 0 = (some phys, next)) :
    Shifted rest (buddy, magazine) (next, (magazine.push phys).2) := by
  rcases stocked.take allocated with ⟨taken, frames, free⟩
  rcases Magazine.contents_push room phys with ⟨_, top, contents⟩
  refine ⟨?_, ?_, ?_, ?_⟩
  · rw [contents, cons_add]
    exact taken
  · rw [top]
    exact room
  · simp only [top]
    omega
  · intro frame
    rw [contents, cons_add]
    exact free frame

theorem pop (bounded : magazine.top ≤ magazineSize) (nonempty : 0 < magazine.top) :
    Shifted rest (buddy, magazine) (buddy.free magazine.pop.1 0, magazine.pop.2) := by
  rcases Magazine.contents_pop nonempty with ⟨top, contents⟩
  rw [contents, cons_add] at stocked
  rcases stocked.giveBack with ⟨returned, frames, free⟩
  refine ⟨returned, ?_, ?_, ?_⟩
  · simp only
    omega
  · simp only [frames]
    omega
  · intro frame
    rw [contents, cons_add]
    exact free frame

theorem pop_ne_zero (nonempty : 0 < magazine.top) : magazine.pop.1 ≠ 0 := by
  rw [(Magazine.contents_pop nonempty).2, cons_add] at stocked
  rcases stocked.cached _ (mem_cons_self _ _) with ⟨frame, address, positive, _⟩
  rw [address]
  exact ne_of_gt (Nat.mul_pos positive (by decide))

end

theorem refill (turns : Nat) (buddy : BuddyAlloc) (magazine : Magazine)
    (stocked : Stocked buddy (magazine.contents + rest)) (bounded : magazine.top ≤ magazineSize) :
    Shifted rest (buddy, magazine) (PhysState.refill turns buddy magazine) := by
  induction turns generalizing buddy magazine with
  | zero => exact refl stocked bounded
  | succ turns induction =>
    rw [PhysState.refill]
    by_cases full : magazineSize ≤ magazine.top
    · simp only [Magazine.isFull, ge_iff_le, full, decide_true, if_true]
      exact refl stocked bounded
    simp only [Magazine.isFull, ge_iff_le, full, decide_false, Bool.false_eq_true, if_false]
    rcases answer : buddy.alloc 0 with ⟨result, next⟩
    cases result with
    | none =>
      rw [BuddyAlloc.alloc_none answer]
      exact refl stocked bounded
    | some phys =>
      have pushed := push stocked (lt_of_not_ge full) answer
      exact pushed.trans (induction next _ pushed.stocked pushed.bounded)

theorem drain (turns : Nat) (buddy : BuddyAlloc) (magazine : Magazine)
    (stocked : Stocked buddy (magazine.contents + rest))
    (bounded : magazine.top ≤ magazineSize) (enough : turns ≤ magazine.top) :
    Shifted rest (buddy, magazine) (PhysState.drain turns buddy magazine) ∧
    (PhysState.drain turns buddy magazine).2.top + turns = magazine.top := by
  induction turns generalizing buddy magazine with
  | zero => exact ⟨refl stocked bounded, rfl⟩
  | succ turns induction =>
    have nonempty : 0 < magazine.top := by omega
    have top := (Magazine.contents_pop nonempty).1
    have popped := pop stocked bounded nonempty
    have nonzero := pop_ne_zero stocked nonempty
    simp only [PhysState.drain, bne_iff_ne, ne_eq, nonzero, not_false_eq_true, if_true]
    rcases induction (buddy.free magazine.pop.1 0) magazine.pop.2 popped.stocked popped.bounded
      (by omega) with ⟨shifted, restTop⟩
    exact ⟨popped.trans shifted, by omega⟩

end Shifted

/-! ## The state of the frame API -/

namespace PhysState

def cached (self : PhysState) : Multiset Nat :=
  ∑ slot ∈ Finset.range maxCpusPhys, (self.magazines slot).contents

def cachedElsewhere (self : PhysState) (cpu : Nat) : Multiset Nat :=
  ∑ slot ∈ (Finset.range maxCpusPhys).erase (slot cpu), (self.magazines slot).contents

def IsFree (self : PhysState) (frame : Nat) : Prop :=
  FreeIn self.buddy self.cached frame

structure Valid (state : PhysState) : Prop where
  stocked : Stocked state.buddy state.cached
  bounded : ∀ slot, (state.magazines slot).top ≤ magazineSize
  counted : state.totalFree = state.buddy.freeFrames + card state.cached

theorem cached_eq (self : PhysState) (cpu : Nat) :
    self.cached = (self.magazines (slot cpu)).contents + self.cachedElsewhere cpu := by
  have member : slot cpu ∈ Finset.range maxCpusPhys := by
    have positive : 0 < maxCpusPhys := by decide
    rw [Finset.mem_range, slot]
    omega
  exact (Finset.add_sum_erase _ _ member).symm

@[simp] theorem cachedElsewhere_setMagazine (self : PhysState) (cpu : Nat) (magazine : Magazine) :
    (self.setMagazine cpu magazine).cachedElsewhere cpu = self.cachedElsewhere cpu := by
  apply Finset.sum_congr rfl
  intro other member
  simp only [setMagazine]
  rw [update_of_ne (Finset.ne_of_mem_erase member)]

theorem cached_setMagazine (self : PhysState) (cpu : Nat) (magazine : Magazine) :
    (self.setMagazine cpu magazine).cached =
      magazine.contents + self.cachedElsewhere cpu := by
  rw [cached_eq _ cpu, cachedElsewhere_setMagazine]
  simp [setMagazine]

variable {self : PhysState} {cpu : Nat}

theorem card_cached_le (bounded : ∀ slot, (self.magazines slot).top ≤ magazineSize) :
    card self.cached ≤ maxCpusPhys * magazineSize := by
  rw [cached]
  have each : ∑ slot ∈ Finset.range maxCpusPhys,
        card (self.magazines slot).contents ≤
      ∑ _slot ∈ Finset.range maxCpusPhys, magazineSize := by
    apply Finset.sum_le_sum
    intro slot _
    rw [Magazine.card_contents]
    exact bounded slot
  simpa using each

theorem Valid.totalFree_lt (valid : self.Valid) :
    self.totalFree < 2 ^ 34 := by
  have weight := self.buddy.freeWeight_lt
  have stock := card_cached_le valid.bounded
  have sizes : maxCpusPhys * magazineSize = 4096 := by decide
  rw [valid.counted, valid.stocked.invariant.counted]
  omega

theorem Valid.stocked_slot (valid : self.Valid) (cpu : Nat) :
    Stocked self.buddy ((self.magazines (slot cpu)).contents + self.cachedElsewhere cpu) := by
  rw [← cached_eq]
  exact valid.stocked

theorem Valid.counted_slot (valid : self.Valid) (cpu : Nat) :
    self.totalFree = self.buddy.freeFrames + ((self.magazines (slot cpu)).top +
      card (self.cachedElsewhere cpu)) := by
  rw [valid.counted, self.cached_eq cpu, card_add, Magazine.card_contents]

/-- The state after a call on one CPU: a buddy allocator, that CPU's magazine
and a counter. -/
def after (self : PhysState) (cpu : Nat) (buddy : BuddyAlloc) (magazine : Magazine)
    (totalFree : Nat) : PhysState :=
  { { self with buddy := buddy }.setMagazine cpu magazine with totalFree := totalFree }

theorem cached_after (self : PhysState) (cpu : Nat) (buddy : BuddyAlloc)
    (magazine : Magazine) (totalFree : Nat) :
    (self.after cpu buddy magazine totalFree).cached =
      magazine.contents + self.cachedElsewhere cpu :=
  cached_setMagazine { self with buddy := buddy } cpu magazine

theorem Valid.after (valid : self.Valid) {cpu : Nat} {buddy : BuddyAlloc} {magazine : Magazine}
    {totalFree : Nat} (stocked : Stocked buddy (magazine.contents + self.cachedElsewhere cpu))
    (bounded : magazine.top ≤ magazineSize) (counted : totalFree = buddy.freeFrames +
      (magazine.top + card (self.cachedElsewhere cpu))) :
    (self.after cpu buddy magazine totalFree).Valid := by
  refine ⟨?_, ?_, ?_⟩
  · rw [cached_after]
    exact stocked
  · intro other
    simp only [PhysState.after, setMagazine]
    by_cases same : other = slot cpu
    · rw [same, update_self]
      exact bounded
    · rw [update_of_ne same]
      exact valid.bounded other
  · rw [cached_after, card_add, Magazine.card_contents]
    exact counted

variable {moved : BuddyAlloc × Magazine} {counter amount : Nat}

theorem fetchSub_eq (enough : amount ≤ counter) (small : counter < 2 ^ usizeBits) :
    fetchSub counter amount = counter - amount := by
  have exact : counter + (2 ^ usizeBits - amount) = 2 ^ usizeBits + (counter - amount) := by
    omega
  rw [fetchSub, exact, add_mod_left, mod_eq_of_lt (by omega)]

theorem fetchAdd_eq (small : counter + amount < 2 ^ usizeBits) :
    fetchAdd counter amount = counter + amount :=
  mod_eq_of_lt small

/-! ## One frame at a time -/

/-- Exactly the frames of `block`, `size` of them, stopped being free. -/
structure Takes (before next : PhysState) (block : Nat → Prop) (size : Nat) : Prop where
  valid : next.Valid
  wasFree : ∀ frame, block frame → before.IsFree frame
  totalFree : next.totalFree + size = before.totalFree
  isFree : ∀ frame, next.IsFree frame ↔ before.IsFree frame ∧ ¬block frame

/-- Exactly the frames of `block`, `size` of them, became free. -/
structure Gives (before next : PhysState) (block : Nat → Prop) (size : Nat) : Prop where
  valid : next.Valid
  totalFree : next.totalFree = before.totalFree + size
  isFree : ∀ frame, next.IsFree frame ↔ before.IsFree frame ∨ block frame

theorem Valid.shifted_freeIn (shifted : Shifted (self.cachedElsewhere cpu)
      (self.buddy, self.magazines (slot cpu)) moved) (frame : Nat) :
    FreeIn moved.1 (moved.2.contents + self.cachedElsewhere cpu) frame ↔
      self.IsFree frame := by
  rw [IsFree, self.cached_eq cpu]
  exact shifted.freeIn frame

section

variable (valid : self.Valid)
include valid

/-- Popping a frame hands it out, whether or not frames were moved into the
magazine before. -/
theorem Valid.pop {cpu : Nat} (shifted : Shifted (self.cachedElsewhere cpu)
      (self.buddy, self.magazines (slot cpu)) moved) (nonempty : 0 < moved.2.top) :
    ∃ frame, moved.2.pop.1 = frame * pageSize ∧
      self.Takes (self.after cpu moved.1 moved.2.pop.2 (fetchSub self.totalFree 1))
        (· = frame) 1 := by
  rcases Magazine.contents_pop nonempty with ⟨top, contents⟩
  have stocked := shifted.stocked
  rw [contents, cons_add] at stocked
  rcases stocked.cached _ (mem_cons_self _ _) with ⟨frame, address, _⟩
  rw [address] at stocked
  rcases stocked.handOut with ⟨handedOut, freeIn⟩
  have stillFree := Valid.shifted_freeIn shifted
  rw [contents, cons_add, address] at stillFree
  have total := shifted.total
  simp only at total
  have counted := valid.counted_slot cpu
  have small := valid.totalFree_lt
  have sub : fetchSub self.totalFree 1 = self.totalFree - 1 :=
    fetchSub_eq (by omega) (by rw [usizeBits]; omega)
  refine ⟨frame, address, ?_, ?_, ?_, ?_⟩
  · apply valid.after handedOut
    · have bounded := shifted.bounded
      omega
    · rw [sub]
      omega
  · intro other same
    rw [same]
    exact (stillFree frame).mp (.inr (mem_cons_self _ _))
  · change fetchSub self.totalFree 1 + 1 = self.totalFree
    omega
  · intro other
    rw [IsFree, cached_after]
    exact (freeIn other).trans (and_congr_left fun _ => stillFree other)

/-- Pushing a frame makes it free, whether or not frames were moved out of the
magazine before. -/
theorem Valid.push {cpu frame : Nat} (shifted : Shifted (self.cachedElsewhere cpu)
      (self.buddy, self.magazines (slot cpu)) moved) (room : moved.2.top < magazineSize)
    (positive : 0 < frame) (below : frame < maxFrames) (taken : ¬self.IsFree frame) :
    self.Gives (self.after cpu moved.1 (moved.2.push (frame * pageSize)).2
      (fetchAdd self.totalFree 1)) (· = frame) 1 := by
  rcases Magazine.contents_push room (frame * pageSize) with ⟨_, top, contents⟩
  have stillFree := Valid.shifted_freeIn shifted
  rcases shifted.stocked.keep positive below fun free => taken ((stillFree frame).mp free)
    with ⟨kept, freeIn⟩
  have total := shifted.total
  simp only at total
  have counted := valid.counted_slot cpu
  have small := valid.totalFree_lt
  have add : fetchAdd self.totalFree 1 = self.totalFree + 1 :=
    fetchAdd_eq (by rw [usizeBits]; omega)
  refine ⟨?_, add, ?_⟩
  · apply valid.after
    · rw [contents, cons_add]
      exact kept
    · omega
    · rw [top]
      omega
  · intro other
    rw [IsFree, cached_after, contents, cons_add]
    exact (freeIn other).trans (or_congr_left (stillFree other))

omit valid in
theorem Valid.pop_eq_zero (shifted : Shifted (self.cachedElsewhere cpu)
      (self.buddy, self.magazines (slot cpu)) moved) :
    moved.2.pop.1 = 0 ↔ moved.2.top = 0 := by
  constructor
  · intro zero
    by_contra nonzero
    exact Shifted.pop_ne_zero shifted.stocked (pos_of_ne_zero nonzero) zero
  · intro empty
    rw [Magazine.pop_of_empty empty]

theorem Valid.shifted_refl (cpu : Nat) :
    Shifted (self.cachedElsewhere cpu) (self.buddy, self.magazines (slot cpu))
      (self.buddy, self.magazines (slot cpu)) :=
  Shifted.refl (valid.stocked_slot cpu) (valid.bounded _)

/-- A call moves frames into the magazine if it is empty, and then pops it. -/
theorem Valid.allocFrame_eq (cpu : Nat) :
    ∃ moved, Shifted (self.cachedElsewhere cpu) (self.buddy, self.magazines (slot cpu)) moved ∧
      self.allocFrame cpu =
        if moved.2.top = 0 then (none, self.after cpu moved.1 moved.2 self.totalFree)
        else (some moved.2.pop.1,
          self.after cpu moved.1 moved.2.pop.2 (fetchSub self.totalFree 1)) := by
  by_cases empty : (self.magazines (slot cpu)).top = 0
  · have refilled := Shifted.refill magazineSize self.buddy (self.magazines (slot cpu))
      (valid.stocked_slot cpu) (valid.bounded _)
    refine ⟨_, refilled, ?_⟩
    simp only [allocFrame, Magazine.pop_of_empty empty, bne_self_eq_false, Bool.false_eq_true,
      if_false, bne_iff_ne, ne_eq, Valid.pop_eq_zero refilled, ite_not]
    split
    next none =>
      rw [Magazine.pop_of_empty none]
      rfl
    next => rfl
  · have here := valid.shifted_refl cpu
    refine ⟨_, here, ?_⟩
    simp only [allocFrame, bne_iff_ne, ne_eq, Valid.pop_eq_zero here, empty, not_false_eq_true,
      if_true, if_false]
    rfl

theorem allocFrame_some {next : PhysState} {phys : Nat}
    (allocated : self.allocFrame cpu = (some phys, next)) :
    ∃ frame, phys = frame * pageSize ∧ self.Takes next (· = frame) 1 := by
  rcases valid.allocFrame_eq cpu with ⟨moved, shifted, run⟩
  rw [run] at allocated
  split at allocated
  next => cases allocated
  next nonempty =>
    cases allocated
    exact valid.pop shifted (pos_of_ne_zero nonempty)

theorem allocFrame_none {next : PhysState} (failed : self.allocFrame cpu = (none, next)) :
    next.Valid ∧ next.totalFree = self.totalFree ∧
      ∀ frame, next.IsFree frame ↔ self.IsFree frame := by
  rcases valid.allocFrame_eq cpu with ⟨moved, shifted, run⟩
  rw [run] at failed
  split at failed
  next =>
    cases failed
    have total := shifted.total
    have counted := valid.counted_slot cpu
    refine ⟨valid.after shifted.stocked shifted.bounded ?_, rfl, ?_⟩
    · simp only at total
      omega
    · intro frame
      rw [← Valid.shifted_freeIn shifted frame, IsFree, cached_after]
      rfl
  next => cases failed

end

theorem freeFrame_spec {frame : Nat} (valid : self.Valid)
    (positive : 0 < frame) (below : frame < maxFrames) (taken : ¬self.IsFree frame) :
    self.Gives (self.freeFrame cpu (frame * pageSize)) (· = frame) 1 := by
  simp only [freeFrame]
  by_cases room : (self.magazines (slot cpu)).top < magazineSize
  · rw [if_pos (Magazine.contents_push room _).1]
    exact valid.push (valid.shifted_refl cpu) room positive below taken
  rw [Magazine.push_of_full (le_of_not_gt room)]
  have top := valid.bounded (slot cpu)
  have size : magazineSize = 64 := rfl
  rcases Shifted.drain ((self.magazines (slot cpu)).count / 2) self.buddy
      (self.magazines (slot cpu)) (valid.stocked_slot cpu) (valid.bounded _)
      (Nat.div_le_self _ _) with ⟨drained, drainedTop⟩
  apply valid.push drained _ positive below taken
  simp only [Magazine.count] at drainedTop ⊢
  omega

end PhysState

/-! ## Whole blocks -/

namespace PhysState

variable {self : PhysState} {n cpu : Nat}

variable {phys : Nat} {next : PhysState}

theorem Valid.alloc (valid : self.Valid) {next : BuddyAlloc} {order index : Nat}
    (allocates : self.buddy.Allocates next order phys index) :
    self.Takes { self with
      buddy := next
      totalFree := fetchSub self.totalFree (2 ^ order) }
      (fun frame => frame / 2 ^ order = index) (2 ^ order) := by
  rcases valid.stocked.alloc allocates with ⟨stocked, freeIn⟩
  have frames := allocates.freeFrames
  have counted := valid.counted
  have small := valid.totalFree_lt
  have sub : fetchSub self.totalFree (2 ^ order) = self.totalFree - 2 ^ order :=
    fetchSub_eq (by omega) (by rw [usizeBits]; omega)
  refine ⟨⟨stocked, valid.bounded, ?_⟩, ?_, ?_, freeIn⟩
  · change fetchSub self.totalFree (2 ^ order) = next.freeFrames + card self.cached
    omega
  · intro frame inside
    exact .inl (allocates.wasFree frame inside)
  · change fetchSub self.totalFree (2 ^ order) + 2 ^ order = self.totalFree
    omega

theorem Valid.free (valid : self.Valid) {order phys : Nat}
    (inOrders : order ≤ maxOrder) (inRange : phys / pageSize < maxFrames)
    (taken : ∀ frame, frame / 2 ^ order = phys / pageSize / 2 ^ order →
      0 < frame ∧ ¬self.IsFree frame) :
    self.Gives { self with
      buddy := self.buddy.free phys order
      totalFree := fetchAdd self.totalFree (2 ^ order) }
      (fun frame => frame / 2 ^ order = phys / pageSize / 2 ^ order) (2 ^ order) := by
  rcases valid.stocked.free inOrders inRange taken with ⟨stocked, frames, freeIn⟩
  have counted := valid.counted
  have small := valid.totalFree_lt
  have power : 2 ^ order ≤ 2 ^ maxOrder := Nat.pow_le_pow_right (by decide) inOrders
  have limit : 2 ^ maxOrder = 2048 := by decide
  have add : fetchAdd self.totalFree (2 ^ order) = self.totalFree + 2 ^ order :=
    fetchAdd_eq (by rw [usizeBits]; omega)
  refine ⟨⟨stocked, valid.bounded, ?_⟩, add, freeIn⟩
  change fetchAdd self.totalFree (2 ^ order) =
    (self.buddy.free phys order).freeFrames + card self.cached
  omega

/-! ## The orders of `allocFrames` and `freeFramesN` -/

theorem bits_eq (positive : 0 < n) :
    usizeBits - leadingZeros n = min (n.log2 + 1) usizeBits := by
  have nonzero : (n == 0) = false := by simp; omega
  rw [leadingZeros, nonzero]
  simp only [Bool.false_eq_true, if_false]
  omega

theorem freeOrder_eq (positive : 0 < n) : freeOrder n = min n.log2 maxOrder := by
  rw [freeOrder, bits_eq positive, usizeBits, maxOrder]
  omega

theorem freeOrder_le (n : Nat) : freeOrder n ≤ maxOrder := min_le_right _ _

theorem freeOrder_le_allocOrder (n : Nat) : freeOrder n ≤ allocOrder n := by
  simp only [freeOrder, allocOrder]
  split <;> omega

theorem two_pow_freeOrder_le (positive : 0 < n) : 2 ^ freeOrder n ≤ n := by
  rw [freeOrder_eq positive]
  calc 2 ^ min n.log2 maxOrder
      ≤ 2 ^ n.log2 := Nat.pow_le_pow_right (by decide) (min_le_left _ _)
    _ ≤ n := log2_self_le (by omega)

@[simp] theorem freeOrder_two_pow {order : Nat} (inOrders : order ≤ maxOrder) :
    freeOrder (2 ^ order) = order := by
  rw [freeOrder_eq (Nat.two_pow_pos _), log2_two_pow, min_eq_left inOrders]

@[simp] theorem allocOrder_two_pow {order : Nat} (inOrders : order ≤ maxOrder) :
    allocOrder (2 ^ order) = order := by
  have power : isPowerOfTwo (2 ^ order) = true := by
    simp [isPowerOfTwo, log2_two_pow]
  rw [allocOrder, power]
  exact freeOrder_two_pow inOrders

/-! ## Several frames at a time -/

theorem allocFrames_some (valid : self.Valid)
    (allocated : self.allocFrames cpu n = (some phys, next)) :
    ∃ index, phys = index * 2 ^ allocOrder n * pageSize ∧
      self.Takes next (fun frame => frame / 2 ^ allocOrder n = index) (2 ^ allocOrder n) := by
  rw [allocFrames] at allocated
  split at allocated
  next => simp at allocated
  split at allocated
  next single =>
    have orderZero : allocOrder n = 0 := by
      rw [eq_of_beq single]
      exact @allocOrder_two_pow 0 (by decide)
    simpa [orderZero] using allocFrame_some valid allocated
  next =>
    rcases result : self.buddy.alloc (allocOrder n) with ⟨answer, buddy⟩
    simp only [result] at allocated
    cases answer with
    | none => simp at allocated
    | some found =>
      rw [Prod.mk.injEq, Option.some.injEq] at allocated
      rcases BuddyAlloc.alloc_some valid.stocked.invariant result with ⟨index, allocates⟩
      refine ⟨index, allocated.1.symm.trans allocates.address, ?_⟩
      rw [← allocated.2]
      exact valid.alloc allocates

theorem allocFrames_none (valid : self.Valid) (failed : self.allocFrames cpu n = (none, next)) :
    next.Valid ∧ next.totalFree = self.totalFree ∧
      ∀ frame, next.IsFree frame ↔ self.IsFree frame := by
  rw [allocFrames] at failed
  split at failed
  next =>
    rw [← (Prod.mk.inj failed).2]
    exact ⟨valid, rfl, fun _ => Iff.rfl⟩
  split at failed
  next => exact allocFrame_none valid failed
  rcases result : self.buddy.alloc (allocOrder n) with ⟨answer, buddy⟩
  simp only [result] at failed
  cases answer with
  | some found => simp at failed
  | none =>
    rw [← (Prod.mk.inj failed).2, BuddyAlloc.alloc_none result]
    exact ⟨valid, rfl, fun _ => Iff.rfl⟩

theorem freeFramesN_spec {phys : Nat} (valid : self.Valid)
    (address : phys % pageSize = 0) (inRange : phys / pageSize < maxFrames)
    (taken : ∀ frame, frame / 2 ^ freeOrder n = phys / pageSize / 2 ^ freeOrder n →
      0 < frame ∧ ¬self.IsFree frame) :
    self.Gives (self.freeFramesN cpu phys n)
      (fun frame => frame / 2 ^ freeOrder n = phys / pageSize / 2 ^ freeOrder n)
      (2 ^ freeOrder n) := by
  rw [freeFramesN]
  split
  next single =>
    have orderZero : freeOrder n = 0 := by
      rw [eq_of_beq single]
      exact @freeOrder_two_pow 0 (by decide)
    rw [orderZero] at taken ⊢
    simp only [pow_zero, Nat.div_one, forall_eq] at taken ⊢
    have whole : phys = phys / pageSize * pageSize :=
      (Nat.div_mul_cancel (dvd_of_mod_eq_zero address)).symm
    have gives := @freeFrame_spec self cpu _ valid taken.1 inRange taken.2
    rwa [← whole] at gives
  next => exact valid.free (freeOrder_le n) inRange taken

end PhysState

end Qunix.Memory.Phys
