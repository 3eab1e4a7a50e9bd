import Qunix.Memory.Phys.BuddyAlloc

/-! # Per-CPU magazines and the public frame API

The second half of `memory/phys.rs`. Every call is taken as one atomic step, so
the compare-exchange loops of the magazines succeed at their first turn. A
magazine answers 0 for "empty", which is why frame 0 must not be managed.
-/

namespace Qunix.Memory.Phys

def magazineSize : Nat := 64

def maxCpusPhys : Nat := 64

/-! ## Magazines -/

structure Magazine where
  frames : Nat → Nat
  top : Nat

namespace Magazine

def new : Magazine where
  frames := fun _ => 0
  top := 0

def pop (self : Magazine) : Nat × Magazine :=
  if self.top == 0 then
    (0, self)
  else
    (self.frames (self.top - 1), { self with top := self.top - 1 })

def push (self : Magazine) (phys : Nat) : Bool × Magazine :=
  if self.top ≥ magazineSize then
    (false, self)
  else
    (true, { frames := Function.update self.frames self.top phys, top := self.top + 1 })

def isFull (self : Magazine) : Bool := self.top ≥ magazineSize

def count (self : Magazine) : Nat := self.top

end Magazine

/-! ## Machine counters -/

def usizeBits : Nat := 64

/-- `AtomicUsize::fetch_add`, which wraps. -/
def fetchAdd (counter amount : Nat) : Nat := (counter + amount) % 2 ^ usizeBits

/-- `AtomicUsize::fetch_sub`, which wraps. -/
def fetchSub (counter amount : Nat) : Nat :=
  (counter + (2 ^ usizeBits - amount)) % 2 ^ usizeBits

def leadingZeros (value : Nat) : Nat :=
  if value == 0 then usizeBits else usizeBits - 1 - value.log2

def isPowerOfTwo (value : Nat) : Bool := value != 0 && 2 ^ value.log2 == value

/-! ## Frame API -/

structure PhysState where
  buddy : BuddyAlloc
  magazines : Nat → Magazine
  totalFree : Nat

namespace PhysState

/-- The magazine slot of a CPU, `cpu.min(MAX_CPUS_PHYS - 1)`. -/
def slot (cpu : Nat) : Nat := min cpu (maxCpusPhys - 1)

variable (self : PhysState)

def setMagazine (cpu : Nat) (magazine : Magazine) : PhysState :=
  { self with magazines := Function.update self.magazines (slot cpu) magazine }

/-- The refill loop of `alloc_frame`. Each turn pushes one frame, so
`magazineSize` turns fill any magazine. -/
def refill : (turns : Nat) → BuddyAlloc → Magazine → BuddyAlloc × Magazine
  | 0, buddy, magazine => (buddy, magazine)
  | turns + 1, buddy, magazine =>
    if magazine.isFull then
      (buddy, magazine)
    else
      match buddy.alloc 0 with
      | (some phys, buddy) => refill turns buddy (magazine.push phys).2
      | (none, buddy) => (buddy, magazine)

/-- The drain loop of `free_frame`. -/
def drain : (turns : Nat) → BuddyAlloc → Magazine → BuddyAlloc × Magazine
  | 0, buddy, magazine => (buddy, magazine)
  | turns + 1, buddy, magazine =>
    let popped := magazine.pop
    if popped.1 != 0 then
      drain turns (buddy.free popped.1 0) popped.2
    else
      (buddy, popped.2)

def allocFrame (cpu : Nat) : Option Nat × PhysState :=
  let popped := (self.magazines (slot cpu)).pop
  if popped.1 != 0 then
    let taken := self.setMagazine cpu popped.2
    (some popped.1, { taken with totalFree := fetchSub taken.totalFree 1 })
  else
    let refilled := refill magazineSize self.buddy popped.2
    let again := refilled.2.pop
    let next := { self with buddy := refilled.1 }.setMagazine cpu again.2
    if again.1 != 0 then
      (some again.1, { next with totalFree := fetchSub next.totalFree 1 })
    else
      (none, next)

theorem allocFrame_exhausted {self : PhysState} {cpu : Nat}
    (magazine : (self.magazines (slot cpu)).top = 0)
    (empty : self.buddy.freeBitmaps = fun _ => Foundation.WordBitmap.empty) :
    (self.allocFrame cpu).1 = none := by
  have popped : (self.magazines (slot cpu)).pop = (0, self.magazines (slot cpu)) := by
    rw [Magazine.pop, magazine, if_pos (beq_self_eq_true 0)]
  have refilled : refill magazineSize self.buddy (self.magazines (slot cpu)) =
      (self.buddy, self.magazines (slot cpu)) := by
    rw [magazineSize, refill, BuddyAlloc.alloc_exhausted empty]
    split <;> rfl
  simp only [allocFrame, popped, refilled, bne_self_eq_false, Bool.false_eq_true, if_false]

def freeFrame (cpu phys : Nat) : PhysState :=
  let magazine := self.magazines (slot cpu)
  let pushed := magazine.push phys
  if pushed.1 then
    let kept := self.setMagazine cpu pushed.2
    { kept with totalFree := fetchAdd kept.totalFree 1 }
  else
    let drained := drain (magazine.count / 2) self.buddy magazine
    let kept := { self with buddy := drained.1 }.setMagazine cpu (drained.2.push phys).2
    { kept with totalFree := fetchAdd kept.totalFree 1 }

/-- The order `alloc_frames` asks the buddy allocator for. -/
def allocOrder (n : Nat) : Nat :=
  min (usizeBits - leadingZeros n - (if isPowerOfTwo n then 1 else 0)) maxOrder

/-- The order `free_frames_n` returns to the buddy allocator. -/
def freeOrder (n : Nat) : Nat :=
  min (usizeBits - leadingZeros n - 1) maxOrder

/-- Allocate `n` contiguous 4KB frames. -/
def allocFrames (cpu n : Nat) : Option Nat × PhysState :=
  if n == 0 then (none, self)
  else if n == 1 then self.allocFrame cpu
  else
    let order := allocOrder n
    match self.buddy.alloc order with
    | (some phys, buddy) =>
      (some phys, { self with
        buddy := buddy
        totalFree := fetchSub self.totalFree (2 ^ order) })
    | (none, buddy) => (none, { self with buddy := buddy })

/-- Free `n` contiguous frames. -/
def freeFramesN (cpu phys n : Nat) : PhysState :=
  if n == 1 then self.freeFrame cpu phys
  else
    let order := freeOrder n
    { self with
      buddy := self.buddy.free phys order
      totalFree := fetchAdd self.totalFree (2 ^ order) }

end PhysState

end Qunix.Memory.Phys
