import Mathlib.Algebra.Group.Nat.Defs
import Qunix.Foundation.WordBitmap

/-! # The global buddy allocator

`BuddyAlloc` of `memory/phys.rs`: one bitmap for each order, where a set bit
`i` of order `n` marks the block of `2 ^ n` frames from frame `i * 2 ^ n` on as
free. Physical addresses are byte addresses; frame `f` starts at
`f * pageSize`.
-/

namespace Qunix.Memory.Phys

open Foundation

def pageSize : Nat := 4096

def maxFrames : Nat := 2 ^ 20

def bitmapWords : Nat := maxFrames / 64

def maxOrder : Nat := 11

structure BuddyAlloc where
  freeBitmaps : Nat → WordBitmap
  totalFrames : Nat
  freeFrames : Nat

namespace BuddyAlloc

def new : BuddyAlloc where
  freeBitmaps := fun _ => WordBitmap.empty
  totalFrames := 0
  freeFrames := 0

variable (self : BuddyAlloc)

def setFree (order blockIdx : Nat) : BuddyAlloc :=
  { self with
    freeBitmaps := Function.update self.freeBitmaps order
      ((self.freeBitmaps order).set blockIdx) }

def clrFree (order blockIdx : Nat) : BuddyAlloc :=
  { self with
    freeBitmaps := Function.update self.freeBitmaps order
      ((self.freeBitmaps order).clear blockIdx) }

def isFree (order blockIdx : Nat) : Bool :=
  (self.freeBitmaps order).test blockIdx

def findFree (order : Nat) : Option Nat :=
  let max := (maxFrames >>> order) / 64 + 1
  (self.freeBitmaps order).firstSetFrom 0 (min max bitmapWords)

/-- The split loop of `alloc`: from a block `steps` orders above `order` down,
the right half is marked free and the left half is split further. -/
def splitDown (self : BuddyAlloc) (order : Nat) : (steps current : Nat) → BuddyAlloc × Nat
  | 0, current => (self, current)
  | steps + 1, current =>
    splitDown (self.setFree (order + steps) (current * 2 + 1)) order steps (current * 2)

/-- The search loop of `alloc` over the orders from `found` on. -/
def allocFrom (self : BuddyAlloc) (order : Nat) :
    (found remaining : Nat) → Option Nat × BuddyAlloc
  | _, 0 => (none, self)
  | found, remaining + 1 =>
    match self.findFree found with
    | some idx =>
      let split := splitDown (self.clrFree found idx) order (found - order) idx
      let frames := 2 ^ order
      (some (split.2 * frames * pageSize),
        if frames ≤ split.1.freeFrames then
          { split.1 with freeFrames := split.1.freeFrames - frames }
        else split.1)
    | none => allocFrom self order (found + 1) remaining

/-- Allocate `2 ^ order` contiguous frames. Returns the physical address. -/
def alloc (order : Nat) : Option Nat × BuddyAlloc :=
  allocFrom self order order (maxOrder + 1 - order)

theorem alloc_exhausted {self : BuddyAlloc}
    (empty : self.freeBitmaps = fun _ => WordBitmap.empty) (order : Nat) :
    self.alloc order = (none, self) := by
  have search : ∀ remaining found, self.allocFrom order found remaining = (none, self) := by
    intro remaining
    induction remaining with
    | zero => exact fun _ => rfl
    | succ remaining induction =>
      intro found
      rw [allocFrom, findFree, empty, WordBitmap.firstSetFrom_empty]
      exact induction (found + 1)
  exact search _ _

/-- The merge loop of `free`. It climbs one order a turn and stops at
`maxOrder`, so `maxOrder - order` turns always suffice. -/
def coalesce : (turns : Nat) → BuddyAlloc → (order idx : Nat) → BuddyAlloc
  | 0, self, order, idx => self.setFree order idx
  | turns + 1, self, order, idx =>
    let buddy := idx ^^^ 1
    if order ≥ maxOrder || !self.isFree order buddy then
      self.setFree order idx
    else
      coalesce turns (self.clrFree order buddy) (order + 1) (idx / 2)

/-- Free `2 ^ order` contiguous frames, attempting to coalesce with the buddy. -/
def free (phys order : Nat) : BuddyAlloc :=
  let frames := 2 ^ order
  let blockIdx := phys / pageSize / frames
  coalesce (maxOrder - order) { self with freeFrames := self.freeFrames + frames }
    order blockIdx

/-- The loop of `add_range`: each frame is freed at order 0. -/
def freeEach (self : BuddyAlloc) : (first count : Nat) → BuddyAlloc
  | _, 0 => self
  | first, count + 1 => freeEach (self.free (first * pageSize) 0) (first + 1) count

def addRange (first count : Nat) : BuddyAlloc :=
  let added := self.freeEach first count
  { added with totalFrames := added.totalFrames + count }

end BuddyAlloc

end Qunix.Memory.Phys
