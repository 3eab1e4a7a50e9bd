import Qunix.Memory.Phys.BuddyHistory
import Qunix.Memory.Phys.FramesInvariant

/-! # Histories of frame API calls

The frame allocator together with who owns which frame. A grant is recorded for
every frame handed out, so a frame handed out twice shows up as two grants.
-/

namespace Qunix.Memory.Phys

open Foundation BuddyHistory PhysState

/-- The calls of `memory/phys.rs`, each by some caller on some CPU. -/
inductive FrameCall (Caller : Type)
  | allocFrame (caller : Caller) (cpu : Nat)
  | freeFrame (caller : Caller) (cpu phys : Nat)
  | allocFrames (caller : Caller) (cpu n : Nat)
  | freeFramesN (caller : Caller) (cpu phys n : Nat)

structure FrameHistory (Caller : Type) where
  state : PhysState
  grants : List (Caller × Nat)

namespace FrameHistory

variable {Caller : Type}

/-- What `init` leaves behind: the usable frames in the buddy allocator, empty
magazines, and a counter read off the buddy allocator. -/
def boot (buddy : BuddyAlloc) : FrameHistory Caller where
  state := ⟨buddy, fun _ => Magazine.new, buddy.freeFrames⟩
  grants := []

def BlockSize (n : Nat) : Prop := ∃ order, order ≤ maxOrder ∧ n = 2 ^ order

/-- Hand the answer of an allocation of `n` frames to its caller. -/
def granted (history : FrameHistory Caller) (caller : Caller) (n : Nat)
    (answer : Option Nat × PhysState) : FrameHistory Caller where
  state := answer.2
  grants := match answer.1 with
    | some phys =>
      (List.range n).map (fun offset => (caller, phys / pageSize + offset)) ++ history.grants
    | none => history.grants

/-- The caller owns the `n` frames from `phys` on. -/
def Owns (history : FrameHistory Caller) (caller : Caller) (phys n : Nat) : Prop :=
  phys % pageSize = 0 ∧
  ∀ offset < n, (caller, phys / pageSize + offset) ∈ history.grants

/-- The frames from `phys` on are a block: the buddy allocator rounds other addresses down. -/
def Aligned (phys n : Nat) : Prop := n ∣ phys / pageSize

variable [DecidableEq Caller]

def returned (history : FrameHistory Caller) (caller : Caller) (phys n : Nat)
    (next : PhysState) : FrameHistory Caller where
  state := next
  grants := history.grants.filter fun grant =>
    !(grant.1 == caller && decide (phys / pageSize ≤ grant.2 ∧ grant.2 < phys / pageSize + n))

/-- Frames are freed by their owner, and several frames at once have a power-of-two number. -/
def Step (Allowed : Nat → Nat → Prop) (history : FrameHistory Caller) :
    FrameCall Caller → FrameHistory Caller → Prop
  | .allocFrame caller cpu, next =>
    next = history.granted caller 1 (history.state.allocFrame cpu)
  | .freeFrame caller cpu phys, next =>
    history.Owns caller phys 1 ∧
    next = history.returned caller phys 1 (history.state.freeFrame cpu phys)
  | .allocFrames caller cpu n, next =>
    BlockSize n ∧
    next = history.granted caller n (history.state.allocFrames cpu n)
  | .freeFramesN caller cpu phys n, next =>
    BlockSize n ∧ history.Owns caller phys n ∧ Allowed phys n ∧
    next = history.returned caller phys n (history.state.freeFramesN cpu phys n)

/-- The buddy allocator at boot is the result of any calls that never added
frame 0. -/
def Booted (buddy : BuddyAlloc) : Prop :=
  ∃ history, BuddyHistory.system.Reachable history ∧ ¬history.added 0 ∧
    history.buddy = buddy

def calls (Allowed : Nat → Nat → Prop) :
    TransitionSystem (FrameHistory Caller) (FrameCall Caller) where
  Initial := fun history => ∃ buddy, Booted buddy ∧ history = boot buddy
  Step := Step Allowed

/-- The runs in which several frames are freed at once only as a block. -/
def system : TransitionSystem (FrameHistory Caller) (FrameCall Caller) := calls Aligned

/-! ## The invariant of every history -/

structure Owned (history : FrameHistory Caller) : Prop where
  valid : history.state.Valid
  nodup : (history.grants.map Prod.snd).Nodup
  taken : ∀ grant ∈ history.grants,
    0 < grant.2 ∧ grant.2 < maxFrames ∧ ¬history.state.IsFree grant.2

omit [DecidableEq Caller] in
theorem boot_owned {buddy : BuddyAlloc} (booted : Booted buddy) :
    (boot buddy : FrameHistory Caller).Owned := by
  rcases booted with ⟨history, reachable, zeroFree, same⟩
  have consistent := reachable_consistent reachable
  subst same
  have empty : (boot history.buddy : FrameHistory Caller).state.cached = 0 := by
    simp [cached, boot]
  refine ⟨⟨?_, ?_, ?_⟩, ?_, ?_⟩
  · rw [empty]
    exact ⟨consistent.buddy, fun free => zeroFree (consistent.freeAdded 0 free),
      Multiset.nodup_zero, by simp⟩
  · intro cpu
    exact Nat.zero_le _
  · rw [empty]
    rfl
  · simp [boot]
  · simp [boot]

variable {history : FrameHistory Caller} {index : Nat}

section

variable (owned : history.Owned)
include owned

omit [DecidableEq Caller] in
theorem Owned.failed {next : PhysState} (valid : next.Valid)
    (isFree : ∀ frame, next.IsFree frame ↔ history.state.IsFree frame) :
    Owned { history with state := next } where
  valid := valid
  nodup := owned.nodup
  taken := by
    intro grant member
    simp only [isFree]
    exact owned.taken grant member

variable {next : PhysState} {n order frame : Nat} {caller : Caller}

omit owned in
theorem block_iff :
    frame / 2 ^ order = index ↔
      ∃ offset, offset < 2 ^ order ∧ index * 2 ^ order + offset = frame := by
  rw [← covers_iff, BuddyHistory.Covers, add_mul]
  constructor
  · intro inside
    exact ⟨frame - index * 2 ^ order, by omega, by omega⟩
  · intro inside
    rcases inside with ⟨offset, below, position⟩
    omega

omit owned in
theorem aligned_block {phys : Nat} (aligned : Aligned phys (2 ^ order)) :
    frame / 2 ^ order = phys / pageSize / 2 ^ order ↔
      phys / pageSize ≤ frame ∧ frame < phys / pageSize + 2 ^ order := by
  rw [← covers_iff, BuddyHistory.Covers, add_mul, Nat.one_mul, Nat.div_mul_cancel aligned]

omit owned [DecidableEq Caller] in
theorem Owns.mem {phys : Nat} (owns : history.Owns caller phys n) (low : phys / pageSize ≤ frame)
    (high : frame < phys / pageSize + n) : (caller, frame) ∈ history.grants := by
  have member := owns.2 (frame - phys / pageSize) (by omega)
  rwa [Nat.add_sub_cancel' low] at member

omit [DecidableEq Caller] in
theorem Owned.takes {index : Nat}
    (takes : history.state.Takes next (fun frame => frame / 2 ^ order = index) (2 ^ order)) :
    (history.granted caller (2 ^ order)
      (some (index * 2 ^ order * pageSize), next)).Owned := by
  have inBlock : ∀ offset, offset < 2 ^ order →
      (index * 2 ^ order + offset) / 2 ^ order = index :=
    fun offset below => block_iff.mpr ⟨offset, below, rfl⟩
  refine ⟨takes.valid, ?_, ?_⟩
  · simp only [granted, address_div, List.map_append, List.map_map, Function.comp_def]
    apply List.Nodup.append
    · exact List.Nodup.map (fun left right same => Nat.add_left_cancel same) List.nodup_range
    · exact owned.nodup
    · intro frame new old
      rcases List.mem_map.mp new with ⟨offset, below, position⟩
      rcases List.mem_map.mp old with ⟨grant, member, sameFrame⟩
      have free := takes.wasFree _ (inBlock offset (List.mem_range.mp below))
      rw [position, ← sameFrame] at free
      exact (owned.taken grant member).2.2 free
  · intro grant member
    simp only [granted, address_div, List.mem_append, List.mem_map, List.mem_range] at member
    rcases member with ⟨offset, below, same⟩ | old
    · subst same
      have free := takes.wasFree _ (inBlock offset below)
      have bounds := owned.valid.stocked.freeIn_bounds free
      exact ⟨bounds.1, bounds.2, fun still =>
        ((takes.isFree _).mp still).2 (inBlock offset below)⟩
    · have parts := owned.taken grant old
      exact ⟨parts.1, parts.2.1, fun still => parts.2.2 ((takes.isFree _).mp still).1⟩

theorem Owned.gives {phys : Nat} (owns : history.Owns caller phys (2 ^ order))
    (aligned : Aligned phys (2 ^ order))
    (gives : history.state.Gives next
      (fun frame => frame / 2 ^ order = phys / pageSize / 2 ^ order) (2 ^ order)) :
    (history.returned caller phys (2 ^ order) next).Owned := by
  have sublist : (history.returned caller phys (2 ^ order) next).grants.Sublist history.grants :=
    List.filter_sublist
  refine ⟨gives.valid, (sublist.map Prod.snd).nodup owned.nodup, ?_⟩
  intro grant member
  rcases List.mem_filter.mp member with ⟨old, kept⟩
  have parts := owned.taken grant old
  refine ⟨parts.1, parts.2.1, fun free => ?_⟩
  rcases (gives.isFree grant.2).mp free with free | inBlock
  · exact parts.2.2 free
  · -- The caller owns the frame too, and a frame has one grant only.
    have inside := (aligned_block aligned).mp inBlock
    have same : grant = (caller, grant.2) :=
      List.inj_on_of_nodup_map owned.nodup old (owns.mem inside.1 inside.2) rfl
    rw [same] at kept
    simp [inside] at kept

omit [DecidableEq Caller] in
theorem Owned.allocFrames (caller : Caller) (cpu : Nat) (size : BlockSize n) :
    (history.granted caller n (history.state.allocFrames cpu n)).Owned := by
  rcases size with ⟨order, inOrders, power⟩
  subst power
  rcases result : history.state.allocFrames cpu (2 ^ order) with ⟨answer, next⟩
  cases answer with
  | none =>
    rcases allocFrames_none owned.valid result with ⟨valid, _, isFree⟩
    exact owned.failed valid isFree
  | some phys =>
    rcases allocFrames_some owned.valid result with ⟨index, address, takes⟩
    rw [allocOrder_two_pow inOrders] at address takes
    rw [address]
    exact owned.takes takes

theorem Owned.freeFramesN {caller : Caller} {cpu phys n : Nat}
    (size : BlockSize n) (owns : history.Owns caller phys n) (aligned : Aligned phys n) :
    (history.returned caller phys n (history.state.freeFramesN cpu phys n)).Owned := by
  rcases size with ⟨order, inOrders, power⟩
  subst power
  have below := (owned.taken _ (owns.2 0 (Nat.two_pow_pos order))).2.1
  have taken : ∀ frame, frame / 2 ^ order = phys / pageSize / 2 ^ order →
      0 < frame ∧ ¬history.state.IsFree frame := by
    intro frame inBlock
    have inside := (aligned_block aligned).mp inBlock
    have parts := owned.taken _ (owns.mem inside.1 inside.2)
    exact ⟨parts.1, parts.2.2⟩
  have gives := @freeFramesN_spec history.state (2 ^ order) cpu phys
    owned.valid owns.1 below
  rw [freeOrder_two_pow inOrders] at gives
  exact owned.gives owns aligned (gives taken)

theorem Owned.step {next : FrameHistory Caller} {call : FrameCall Caller}
    (taken : history.Step Aligned call next) : next.Owned := by
  have single : BlockSize 1 := ⟨0, by decide, rfl⟩
  cases call with
  | allocFrame caller cpu =>
    rw [taken]
    exact owned.allocFrames caller cpu single
  | freeFrame caller cpu phys =>
    rcases taken with ⟨owns, nextEq⟩
    rw [nextEq]
    exact @Owned.freeFramesN Caller _ history owned caller cpu phys 1 single owns (one_dvd _)
  | allocFrames caller cpu n =>
    rcases taken with ⟨size, nextEq⟩
    rw [nextEq]
    exact owned.allocFrames caller cpu size
  | freeFramesN caller cpu phys n =>
    rcases taken with ⟨size, owns, aligned, nextEq⟩
    rw [nextEq]
    exact owned.freeFramesN size owns aligned

end

theorem reachable_owned (reachable : system.Reachable history) : history.Owned := by
  apply reachable.invariant
  · intro first initial
    rcases initial with ⟨buddy, booted, same⟩
    exact same ▸ boot_owned booted
  · intro before call after owned taken
    exact owned.step taken

/-! ## Safety of every history -/

structure Safe (history : FrameHistory Caller) : Prop where
  grantedOnce : (history.grants.map Prod.snd).Nodup
  notInBuddy : ∀ grant ∈ history.grants, ∀ order index,
    history.state.buddy.isFree order index = true →
    ¬BuddyHistory.Covers order index grant.2
  notInMagazine : ∀ grant ∈ history.grants, ∀ cpu < maxCpusPhys, ∀ position,
    position < (history.state.magazines cpu).top →
    (history.state.magazines cpu).frames position ≠ grant.2 * pageSize
  counted : history.state.totalFree = history.state.buddy.freeFrames +
    ∑ cpu ∈ Finset.range maxCpusPhys, (history.state.magazines cpu).count

/-- Whatever calls were made on whatever CPUs, no frame has two owners, no owned
frame is free anywhere, and the counter agrees with the buddy allocator and the
magazines, as long as several frames are freed at once only at a multiple of their number. -/
theorem reachable_grants_safe {history : FrameHistory Caller}
    (reachable : system.Reachable history) : history.Safe := by
  have owned := reachable_owned reachable
  refine ⟨owned.nodup, ?_, ?_, ?_⟩
  · intro grant member order index isFree covers
    have inside := (covers_iff order index grant.2).mp covers
    apply (owned.taken grant member).2.2
    exact .inl ⟨order, by
      rw [inside]
      exact isFree⟩
  · intro grant member cpu below position inStack same
    apply (owned.taken grant member).2.2
    refine .inr ?_
    rw [cached, Multiset.mem_sum]
    refine ⟨cpu, Finset.mem_range.mpr below, ?_⟩
    rw [← same]
    exact Multiset.mem_map_of_mem _ (Multiset.mem_range.mpr inStack)
  · simp only [owned.valid.counted, cached, Multiset.card_sum,
      Magazine.card_contents, Magazine.count]

def twoBlocks : BuddyAlloc := (BuddyAlloc.new.addRange 256 4).addRange 264 4

theorem booted_twoBlocks : Booted twoBlocks := by
  let first : BuddyHistory := { BuddyHistory.start with
    buddy := BuddyAlloc.new.addRange 256 4
    added := fun frame => BuddyHistory.start.added frame ∨ (256 ≤ frame ∧ frame < 256 + 4) }
  let second : BuddyHistory := { first with
    buddy := twoBlocks
    added := fun frame => first.added frame ∨ (264 ≤ frame ∧ frame < 264 + 4) }
  have bound : maxFrames = 1048576 := by decide
  have firstStep : BuddyHistory.system.Step BuddyHistory.start (.addRange 256 4) first := by
    refine ⟨?_, rfl⟩
    intro frame _ upper
    exact ⟨by omega, fun before => before⟩
  have secondStep : BuddyHistory.system.Step first (.addRange 264 4) second := by
    refine ⟨?_, rfl⟩
    intro frame lower upper
    refine ⟨by omega, fun before => ?_⟩
    rcases before with never | inRange
    · exact never
    · omega
  refine ⟨second, .step (.step (.initial rfl) firstStep) secondStep, ?_, rfl⟩
  intro zeroAdded
  rcases zeroAdded with (never | inFirst) | inSecond
  · exact never
  · omega
  · omega

section

variable {next : PhysState} {caller : Caller} {phys n : Nat} {grants : List (Caller × Nat)}

omit [DecidableEq Caller] in
theorem owns_of_grants (isGrants : history.grants = grants) (aligned : phys % pageSize = 0)
    (all : ∀ offset < n, (caller, phys / pageSize + offset) ∈ grants) :
    history.Owns caller phys n := by
  rw [Owns, isGrants]
  exact ⟨aligned, all⟩

theorem grants_returned (isGrants : history.grants = grants) :
    (history.returned caller phys n next).grants = grants.filter fun grant =>
      !(grant.1 == caller &&
        decide (phys / pageSize ≤ grant.2 ∧ grant.2 < phys / pageSize + n)) := by
  rw [returned, isGrants]

end

/-- Two callers take one block each, and one of them gives back half of its block. -/
theorem reachable_grants_safe_two_callers :
    ∃ history : FrameHistory Bool, system.Reachable history ∧
      history.grants = [(true, 264), (true, 265), (false, 256), (false, 257), (false, 258),
        (false, 259)] ∧
      history.Safe := by
  let start : FrameHistory Bool := boot twoBlocks
  let first := start.granted false 4 (start.state.allocFrames 0 4)
  let second := first.granted true 4 (first.state.allocFrames 1 4)
  let third := second.returned true (266 * pageSize) 2
    (second.state.freeFramesN 0 (266 * pageSize) 2)
  have size : BlockSize 4 := ⟨2, by decide, rfl⟩
  have grants : second.grants = [(true, 264), (true, 265), (true, 266), (true, 267),
      (false, 256), (false, 257), (false, 258), (false, 259)] := by decide +kernel
  have owns : second.Owns true (266 * pageSize) 2 :=
    owns_of_grants grants (by decide) (by decide)
  have thirdStep : system.Step second (.freeFramesN true 0 (266 * pageSize) 2) third :=
    ⟨⟨1, by decide, rfl⟩, owns, by rw [Aligned]; decide, rfl⟩
  have startReachable : system.Reachable start := .initial ⟨_, booted_twoBlocks, rfl⟩
  have reachable := ((startReachable.via (.allocFrames false 0 4) ⟨size, rfl⟩).via
    (.allocFrames true 1 4) ⟨size, rfl⟩).step thirdStep
  have kept : third.grants = [(true, 264), (true, 265), (false, 256), (false, 257), (false, 258),
      (false, 259)] := (grants_returned grants).trans (by decide)
  exact ⟨third, reachable, kept, reachable_grants_safe reachable⟩

/-- The owner of the frames 256 to 259 frees 257 and 258, and the block that is given back is 256
and 257. -/
theorem grants_unsafe_unaligned : ∃ history : FrameHistory Bool,
    (calls fun _ _ => True).Reachable history ∧
      history.grants = [(false, 256), (false, 259)] ∧
      history.state.buddy.isFree 1 128 = true ∧ ¬history.Safe := by
  let start : FrameHistory Bool := boot twoBlocks
  let full := start.granted false 4 (start.state.allocFrames 0 4)
  let freed := full.returned false (257 * pageSize) 2 (full.state.freeFramesN 0 (257 * pageSize) 2)
  have grants : full.grants = [(false, 256), (false, 257), (false, 258), (false, 259)] := by
    decide +kernel
  have owns : full.Owns false (257 * pageSize) 2 :=
    owns_of_grants grants (by decide) (by decide)
  have startReachable : (calls fun _ _ => True).Reachable start :=
    .initial ⟨_, booted_twoBlocks, rfl⟩
  have reachable : (calls fun _ _ => True).Reachable freed :=
    (startReachable.via (.allocFrames false 0 4) ⟨⟨2, by decide, rfl⟩, rfl⟩).via
      (.freeFramesN false 0 (257 * pageSize) 2) ⟨⟨1, by decide, rfl⟩, owns, trivial, rfl⟩
  have kept : freed.grants = [(false, 256), (false, 259)] :=
    (grants_returned grants).trans (by decide)
  have free : freed.state.buddy.isFree 1 128 = true := by decide +kernel
  refine ⟨freed, reachable, kept, free, fun safe => ?_⟩
  exact safe.notInBuddy (false, 256) (by rw [kept]; decide) 1 128 free
    (by rw [BuddyHistory.Covers]; decide)

/-! ## Allocating `n` frames and freeing them again -/

/-- The `n` frames at `phys` were free and now are not, and freeing them, on
whichever CPU, restores the free frames and the counter. -/
structure RoundTrip (before next : PhysState) (phys n : Nat) : Prop where
  reserved : ∀ offset, offset < n →
    before.IsFree (phys / pageSize + offset) ∧ ¬next.IsFree (phys / pageSize + offset)
  restored : ∀ cpu frame,
    (next.freeFramesN cpu phys n).IsFree frame ↔ before.IsFree frame
  recounted : ∀ cpu, (next.freeFramesN cpu phys n).totalFree = before.totalFree

theorem sub_block {small large : Nat} (nested : small ≤ large)
    (inside : frame / 2 ^ small = index * 2 ^ large / 2 ^ small) :
    frame / 2 ^ large = index := by
  have split : 2 ^ large = 2 ^ small * 2 ^ (large - small) := by
    rw [← pow_add, Nat.add_sub_cancel' nested]
  rw [split, ← Nat.div_div_eq_div_mul, inside, Nat.div_div_eq_div_mul, ← split,
    Nat.mul_div_cancel _ (Nat.two_pow_pos _)]

/-- What `freeFramesN` does to the block `allocFrames` has just handed out: it
returns the leading sub-block of order `freeOrder n`. -/
theorem freeFramesN_after_alloc {before : PhysState} (valid : before.Valid)
    (takes : before.Takes next (fun frame => frame / 2 ^ allocOrder n = index)
      (2 ^ allocOrder n)) (cpu : Nat) :
    next.Gives (next.freeFramesN cpu (index * 2 ^ allocOrder n * pageSize) n)
      (fun frame => frame / 2 ^ freeOrder n =
        index * 2 ^ allocOrder n / 2 ^ freeOrder n)
      (2 ^ freeOrder n) := by
  have nested := freeOrder_le_allocOrder n
  have firstFree := takes.wasFree (index * 2 ^ allocOrder n)
    (Nat.mul_div_cancel _ (Nat.two_pow_pos _))
  have gives := @freeFramesN_spec next n cpu
    (index * 2 ^ allocOrder n * pageSize) takes.valid (Nat.mul_mod_left _ _)
  rw [address_div] at gives
  apply gives (valid.stocked.freeIn_bounds firstFree).2
  intro frame inside
  have inBlock := sub_block nested inside
  exact ⟨(valid.stocked.freeIn_bounds (takes.wasFree frame inBlock)).1,
    fun free => ((takes.isFree frame).mp free).2 inBlock⟩

/-- Exactly the block sizes survive the round trip: other sizes are rounded up
when they are allocated and down when they are freed, and beyond `maxOrder` the
block handed out is too short. -/
theorem roundTrip_iff_blockSize {history : FrameHistory Caller}
    (reachable : system.Reachable history) {cpu n phys : Nat} {next : PhysState}
    (allocated : history.state.allocFrames cpu n = (some phys, next)) :
    RoundTrip history.state next phys n ↔ BlockSize n := by
  have valid := (reachable_owned reachable).valid
  have positive : 0 < n := by
    apply pos_of_ne_zero
    intro zero
    simp [zero, allocFrames] at allocated
  rcases allocFrames_some valid allocated with ⟨index, address, takes⟩
  have gives := freeFramesN_after_alloc valid takes
  rw [← address] at gives
  have firstFrame : phys / pageSize = index * 2 ^ allocOrder n := by
    rw [address, address_div]
  have taken := takes.totalFree
  constructor
  · intro roundTrip
    have returned := (gives 0).totalFree
    rw [roundTrip.recounted 0] at returned
    -- The last of the `n` frames lies in the block, so the block is long enough.
    rcases roundTrip.reserved (n - 1) (by omega) with ⟨wasFree, notFree⟩
    rw [takes.isFree, not_and_not_right] at notFree
    rcases block_iff.mp (notFree wasFree) with ⟨offset, below, position⟩
    have atLeast := two_pow_freeOrder_le positive
    exact ⟨freeOrder n, freeOrder_le n, by omega⟩
  · intro size
    rcases size with ⟨order, inOrders, power⟩
    subst power
    rw [allocOrder_two_pow inOrders] at takes taken firstFrame
    simp only [freeOrder_two_pow inOrders, allocOrder_two_pow inOrders,
      Nat.mul_div_cancel _ (Nat.two_pow_pos order)] at gives
    refine ⟨?_, ?_, ?_⟩
    · intro offset below
      have inside : (phys / pageSize + offset) / 2 ^ order = index :=
        block_iff.mpr ⟨offset, below, by rw [firstFrame]⟩
      exact ⟨takes.wasFree _ inside, fun free => ((takes.isFree _).mp free).2 inside⟩
    · intro freeingCpu frame
      rw [(gives freeingCpu).isFree, takes.isFree]
      by_cases inside : frame / 2 ^ order = index
      · simp [inside, takes.wasFree frame inside]
      · simp [inside]
    · intro freeingCpu
      rw [(gives freeingCpu).totalFree, taken]

/-- Four frames make the round trip. -/
theorem roundTrip_four_frames :
    ∃ next, (boot twoBlocks : FrameHistory Bool).state.allocFrames 0 4 =
        (some (256 * pageSize), next) ∧
      RoundTrip (boot twoBlocks : FrameHistory Bool).state next (256 * pageSize) 4 := by
  have reachable : system.Reachable (boot twoBlocks : FrameHistory Bool) :=
    .initial ⟨_, booted_twoBlocks, rfl⟩
  have answer : ((boot twoBlocks : FrameHistory Bool).state.allocFrames 0 4).1 =
      some (256 * pageSize) := by decide +kernel
  rcases allocated : (boot twoBlocks : FrameHistory Bool).state.allocFrames 0 4 with
    ⟨found, next⟩
  rw [allocated] at answer
  subst answer
  exact ⟨next, rfl, (roundTrip_iff_blockSize reachable allocated).mpr ⟨2, by decide, rfl⟩⟩

/-- Three frames are taken as a block of four and given back as a block of two. -/
theorem three_frames_leak :
    ∃ history : FrameHistory Bool, system.Reachable history ∧
      ∃ next, history.state.allocFrames 0 3 = (some (256 * pageSize), next) ∧
        history.state.totalFree = 8 ∧
        (next.freeFramesN 0 (256 * pageSize) 3).totalFree = 6 ∧
        ¬RoundTrip history.state next (256 * pageSize) 3 := by
  refine ⟨boot twoBlocks, .initial ⟨_, booted_twoBlocks, rfl⟩, ?_⟩
  have answer : ((boot twoBlocks : FrameHistory Bool).state.allocFrames 0 3).1 =
      some (256 * pageSize) := by decide +kernel
  have counted : (boot twoBlocks : FrameHistory Bool).state.totalFree = 8 := by
    decide +kernel
  have recounted : (((boot twoBlocks : FrameHistory Bool).state.allocFrames 0 3).2.freeFramesN
      0 (256 * pageSize) 3).totalFree = 6 := by decide +kernel
  rcases allocated : (boot twoBlocks : FrameHistory Bool).state.allocFrames 0 3 with
    ⟨found, next⟩
  rw [allocated] at answer recounted
  subst answer
  refine ⟨next, rfl, counted, recounted, ?_⟩
  intro roundTrip
  have same := roundTrip.recounted 0
  rw [recounted] at same
  omega

end FrameHistory

end Qunix.Memory.Phys
