import Qunix.Memory.Vmm.AddressSpace

/-! # Copies page by page

Loops that copy to and from memory through the direct map stop at every page
boundary and look up the frame of the next page. The lookup is a parameter: the
pages of a file, or the page tables of a process.
-/

namespace Qunix.Memory

open Arch

/-- The part of a copy that stays in the page of `position`. -/
def chunk (position remaining : Nat) : Nat := min remaining (4096 - position % 4096)

theorem chunk_bounds {remaining : Nat} (position : Nat) (more : ¬remaining = 0) :
    chunk position remaining ≤ 4096 - position % 4096 ∧ 0 < chunk position remaining ∧
      chunk position remaining ≤ remaining := by
  rw [chunk]
  omega

/-- All positions in a page have one frame. -/
def Paged (frameOf : Nat → Option Nat) : Prop :=
  ∀ ⦃left right⦄, left / 4096 = right / 4096 → frameOf left = frameOf right

end Qunix.Memory

namespace Qunix.Arch.MemoryState

open Memory

variable {allocator : FrameAllocator} {memory after : MemoryState allocator}
variable {frameOf : Nat → Option Nat} {source : Nat → UInt8}

def byteOf (self : MemoryState allocator) (frameOf : Nat → Option Nat) (position : Nat) : UInt8 :=
  match frameOf position with
  | some frame => self.bytes frame (position % 4096)
  | none => 0

theorem byteOf_some {position frame : Nat} (found : frameOf position = some frame) :
    memory.byteOf frameOf position = memory.bytes frame (position % 4096) := by
  rw [byteOf, found]

theorem byteOf_none {position : Nat} (absent : frameOf position = none) :
    memory.byteOf frameOf position = 0 := by
  rw [byteOf, absent]

/-! ## To memory -/

/-- Write to the frame that holds the page of `position`, from `position` on. -/
def fillChunk (self : MemoryState allocator) (frame position size : Nat)
    (source : Nat → UInt8) : MemoryState allocator :=
  self.fillFrame frame fun offset =>
    if position % 4096 ≤ offset ∧ offset < position % 4096 + size then
      source (position + (offset - position % 4096))
    else self.bytes frame offset

/-- Write `remaining` bytes. The pages before a missing one stay written. Every turn
writes a byte, so `remaining` turns are enough. -/
def copyIn (frameOf : Nat → Option Nat) (source : Nat → UInt8) :
    (turns position remaining : Nat) → MemoryState allocator → Bool × MemoryState allocator
  | 0, _, _, memory => (true, memory)
  | turns + 1, position, remaining, memory =>
    if remaining = 0 then (true, memory)
    else
      match frameOf position with
      | none => (false, memory)
      | some frame =>
        copyIn frameOf source turns (position + chunk position remaining)
          (remaining - chunk position remaining)
          (memory.fillChunk frame position (chunk position remaining) source)

/-- No other position of the range is the same byte of memory. -/
def Unaliased (frameOf : Nat → Option Nat) (first count index : Nat) : Prop :=
  ∀ other, first ≤ other → other < first + count → frameOf other = frameOf index →
    other % 4096 = index % 4096 → other = index

theorem fillChunk_byteOf (paged : Paged frameOf) {frame position size index : Nat}
    (found : frameOf position = some frame) (inside : size ≤ 4096 - position % 4096)
    (unaliased : Unaliased frameOf position size index) :
    (memory.fillChunk frame position size source).byteOf frameOf index =
      if position ≤ index ∧ index < position + size then source index
      else memory.byteOf frameOf index := by
  cases here : frameOf index with
  | none =>
    rw [byteOf_none here, byteOf_none here, if_neg]
    intro inChunk
    have samePage : index / 4096 = position / 4096 := by omega
    cases here.symm.trans ((paged samePage).trans found)
  | some other =>
    rw [byteOf_some here, byteOf_some here]
    by_cases same : other = frame
    · subst same
      simp only [fillChunk, fillFrame, Function.update_self]
      split
      next touched =>
        -- The position that the offset stands for is in the chunk.
        have samePage : (position + (index % 4096 - position % 4096)) / 4096 =
            position / 4096 := by omega
        have isIndex := unaliased (position + (index % 4096 - position % 4096)) (by omega)
          (by omega) (((paged samePage).trans found).trans here.symm) (by omega)
        rw [isIndex, if_pos (by omega)]
      next untouched => rw [if_neg (by omega)]
    · simp only [fillChunk, fillFrame, Function.update_of_ne same]
      rw [if_neg]
      intro inChunk
      have samePage : index / 4096 = position / 4096 := by omega
      exact same (Option.some.inj (here.symm.trans ((paged samePage).trans found)))

theorem copyIn_spec (paged : Paged frameOf) (turns : Nat) :
    ∀ {position remaining : Nat} {memory after : MemoryState allocator}, remaining ≤ turns →
      copyIn frameOf source turns position remaining memory = (true, after) →
      (after.frames = memory.frames ∧ after.tables = memory.tables) ∧
      (∀ index, position ≤ index → index < position + remaining → frameOf index ≠ none) ∧
      ∀ index, Unaliased frameOf position remaining index →
        after.byteOf frameOf index =
          if position ≤ index ∧ index < position + remaining then source index
          else memory.byteOf frameOf index := by
  induction turns with
  | zero =>
    intro position remaining memory after enough copied
    cases copied
    refine ⟨⟨rfl, rfl⟩, by omega, ?_⟩
    intro index _
    rw [if_neg (by omega)]
  | succ turns induction =>
    intro position remaining memory after enough copied
    rw [copyIn] at copied
    split at copied
    next done =>
      cases copied
      refine ⟨⟨rfl, rfl⟩, by omega, ?_⟩
      intro index _
      rw [if_neg (by omega)]
    next more =>
      cases found : frameOf position with
      | none =>
        rw [found] at copied
        cases copied
      | some frame =>
        rw [found] at copied
        have size := chunk_bounds position more
        generalize chunk position remaining = part at *
        rcases induction (by omega) copied with ⟨same, present, bytes⟩
        refine ⟨same, ?_, ?_⟩
        · intro index low high
          by_cases first : index < position + part
          · have samePage : index / 4096 = position / 4096 := by omega
            rw [paged samePage, found]
            exact Option.some_ne_none frame
          · exact present index (by omega) (by omega)
        · intro index unaliased
          rw [bytes index fun other low high => unaliased other (by omega) (by omega),
            fillChunk_byteOf paged found size.1 fun other low high =>
              unaliased other (by omega) (by omega)]
          by_cases first : position ≤ index ∧ index < position + part
          · rw [if_neg (by omega), if_pos first, if_pos (by omega)]
          · rw [if_neg first]
            congr 1
            exact propext (by omega)

theorem copyIn_returns (turns : Nat) :
    ∀ {position remaining : Nat} {memory : MemoryState allocator},
      (∀ index, position ≤ index → index < position + remaining → frameOf index ≠ none) →
      (copyIn frameOf source turns position remaining memory).1 = true := by
  induction turns with
  | zero =>
    intro position remaining memory _
    rfl
  | succ turns induction =>
    intro position remaining memory present
    rw [copyIn]
    split
    next => rfl
    next more =>
      cases found : frameOf position with
      | none => exact absurd found (present position le_rfl (by omega))
      | some frame => exact induction fun index low high => present index (by omega) (by omega)

/-! ## From memory -/

/-- Read `remaining` bytes, nothing if a page is missing. -/
def copyOut (self : MemoryState allocator) (frameOf : Nat → Option Nat) :
    (turns position remaining : Nat) → Option (List UInt8)
  | 0, _, _ => some []
  | turns + 1, position, remaining =>
    if remaining = 0 then some []
    else
      match frameOf position with
      | none => none
      | some frame =>
        (self.copyOut frameOf turns (position + chunk position remaining)
          (remaining - chunk position remaining)).map fun rest =>
          (List.range (chunk position remaining)).map (fun index =>
            self.bytes frame (position % 4096 + index)) ++ rest

theorem copyOut_spec (paged : Paged frameOf) (turns : Nat) :
    ∀ {position remaining : Nat} {bytes : List UInt8}, remaining ≤ turns →
      memory.copyOut frameOf turns position remaining = some bytes →
      bytes = (List.range remaining).map fun index =>
        memory.byteOf frameOf (position + index) := by
  induction turns with
  | zero =>
    intro position remaining bytes enough copied
    cases copied
    rw [Nat.le_zero.mp enough]
    rfl
  | succ turns induction =>
    intro position remaining bytes enough copied
    rw [copyOut] at copied
    split at copied
    next done =>
      cases copied
      rw [done]
      rfl
    next more =>
      cases found : frameOf position with
      | none =>
        rw [found] at copied
        cases copied
      | some frame =>
        rw [found] at copied
        have size := chunk_bounds position more
        generalize chunk position remaining = part at *
        simp only [Option.map_eq_some_iff] at copied
        rcases copied with ⟨rest, copiedRest, isBytes⟩
        have parts : remaining = part + (remaining - part) := by omega
        have front : (List.range part).map (fun index =>
            memory.bytes frame (position % 4096 + index)) =
            (List.range part).map fun index => memory.byteOf frameOf (position + index) := by
          apply List.map_congr_left
          intro index member
          have below := List.mem_range.mp member
          have samePage : (position + index) / 4096 = position / 4096 := by omega
          have offset : (position + index) % 4096 = position % 4096 + index := by omega
          rw [byteOf_some ((paged samePage).trans found), offset]
        rw [← isBytes, front, induction (by omega) copiedRest, parts, List.range_add,
          List.map_append, List.map_map, ← parts]
        apply congrArg
        apply List.map_congr_left
        intro index _
        simp only [Function.comp_apply, add_assoc]

theorem copyOut_returns (turns : Nat) :
    ∀ {position remaining : Nat},
      (∀ index, position ≤ index → index < position + remaining → frameOf index ≠ none) →
      ∃ bytes, memory.copyOut frameOf turns position remaining = some bytes := by
  induction turns with
  | zero =>
    intro position remaining _
    exact ⟨[], rfl⟩
  | succ turns induction =>
    intro position remaining present
    rw [copyOut]
    split
    next => exact ⟨[], rfl⟩
    next more =>
    cases found : frameOf position with
    | none => exact absurd found (present position le_rfl (by omega))
    | some frame =>
      rcases @induction (position + chunk position remaining)
        (remaining - chunk position remaining) fun index low high =>
          present index (by omega) (by omega) with ⟨rest, copied⟩
      simp only [copied]
      exact ⟨_, rfl⟩

end Qunix.Arch.MemoryState
