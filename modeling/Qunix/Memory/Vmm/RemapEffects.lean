import Qunix.Memory.Vmm.CallEffects

/-! # What `mremap` does

The outcomes of a call whose ranges lie in the user half, in plain arithmetic.
-/

namespace Qunix.Memory.Vmm.AddressSpace

open Foundation Arch MemoryState VmaRegion Word

variable {allocator : FrameAllocator} {memory next : MemoryState allocator}
variable {space nextSpace : AddressSpace}

variable {oldAddr oldLen newLen flags newAddr : Nat}

/-- `MREMAP_FIXED` with an address. -/
def remapFixed (flags newAddr : Nat) : Bool := flags / mremapFixed % 2 != 0 && newAddr != 0

def remapDest (space : AddressSpace) (flags newAddr : Nat) : Nat :=
  if remapFixed flags newAddr then alignDown newAddr else space.mmapBase

/-- The ranges that the call can touch lie in the user half. -/
structure RemapWithin (space : AddressSpace) (oldAddr oldLen newLen flags newAddr : Nat) :
    Prop where
  old : alignDown oldAddr + pageCount oldLen * 4096 ≤ userTop
  grown : pageCount oldLen < pageCount newLen →
    alignDown oldAddr + pageCount newLen * 4096 ≤ userTop
  moved : pageCount oldLen < pageCount newLen → flags % 2 ≠ 0 →
    space.remapDest flags newAddr + pageCount newLen * 4096 ≤ userTop

/-- The region that a grown or moved mapping gets. -/
def remapRegion (start pages : Nat) (source : Inherited) : VmaRegion where
  start := start
  stop := start + pages * 4096
  prot := source.prot
  kind := source.kind
  flags := source.flags
  cow := false

def isExactly (first pages : Nat) (region : VmaRegion) : Bool :=
  region.start == first && region.stop == first + pages * 4096

def extendedRegions (space : AddressSpace) (first oldPages newPages : Nat) (source : Inherited) :
    List VmaRegion :=
  if space.regions.any (isExactly first oldPages) then
    updateFirst (isExactly first oldPages)
      (fun region => { region with stop := first + newPages * 4096 }) space.regions
  else space.regions ++ [remapRegion first newPages source]

/-- The mapping could not grow in place: something is in the way, or memory ran out. -/
inductive Blocked (space : AddressSpace) (memory : MemoryState allocator) (first count : Nat)
    (prot : Prot) : MemoryState allocator → Prop
  | occupied {region : VmaRegion} (member : region ∈ space.regions)
      (meets : region.meets first (first + count * 4096) = true) :
      Blocked space memory first count prot memory
  | starved {next : MemoryState allocator}
      (free : ∀ region ∈ space.regions, region.meets first (first + count * 4096) = false)
      (undone : mapRange memory space.pml4 first count (protToFlags prot) = some (false, next)) :
      Blocked space memory first count prot next

inductive RemapEffect (space : AddressSpace) (memory : MemoryState allocator)
    (oldAddr oldLen newLen flags newAddr : Nat) :
    Option Nat → AddressSpace → MemoryState allocator → Prop
  | refused : RemapEffect space memory oldAddr oldLen newLen flags newAddr none space memory
  | removed (zero : newLen = 0) :
      RemapEffect space memory oldAddr oldLen newLen flags newAddr (some (alignDown oldAddr))
        (space.cutPages memory (alignDown oldAddr) (pageCount oldLen)).1
        (space.cutPages memory (alignDown oldAddr) (pageCount oldLen)).2
  | shrunk (nonzero : newLen ≠ 0) (notLonger : pageCount newLen ≤ pageCount oldLen)
      {cut : AddressSpace × MemoryState allocator}
      (isCut : cut = space.cutPages memory (alignDown oldAddr + pageCount newLen * 4096)
        (pageCount oldLen - pageCount newLen)) :
      RemapEffect space memory oldAddr oldLen newLen flags newAddr (some (alignDown oldAddr))
        { cut.1 with
          regions := updateFirst (·.start == alignDown oldAddr)
            (fun region => { region with stop := alignDown oldAddr + pageCount newLen * 4096 })
            cut.1.regions } cut.2
  | extended {next : MemoryState allocator} (longer : pageCount oldLen < pageCount newLen)
      (clear : ∀ region ∈ space.regions, region.meets (alignDown oldAddr + pageCount oldLen * 4096)
          (alignDown oldAddr + pageCount newLen * 4096) = false)
      (populated : mapRange memory space.pml4 (alignDown oldAddr + pageCount oldLen * 4096)
        (pageCount newLen - pageCount oldLen)
        (protToFlags (space.inherited (alignDown oldAddr) (pageCount oldLen * 4096)).prot) =
        some (true, next)) :
      RemapEffect space memory oldAddr oldLen newLen flags newAddr (some (alignDown oldAddr))
        { space with
          regions := space.extendedRegions (alignDown oldAddr) (pageCount oldLen)
            (pageCount newLen) (space.inherited (alignDown oldAddr) (pageCount oldLen * 4096)) }
        next
  | stuck {next : MemoryState allocator} (longer : pageCount oldLen < pageCount newLen)
      (blocked : Blocked space memory (alignDown oldAddr + pageCount oldLen * 4096)
        (pageCount newLen - pageCount oldLen)
        (space.inherited (alignDown oldAddr) (pageCount oldLen * 4096)).prot next)
      (fixed : flags % 2 = 0) :
      RemapEffect space memory oldAddr oldLen newLen flags newAddr none space next
  /-- A move that runs out of memory stops where it is. -/
  | stranded {reached target next : MemoryState allocator} {targetSpace : AddressSpace}
      (longer : pageCount oldLen < pageCount newLen)
      (blocked : Blocked space memory (alignDown oldAddr + pageCount oldLen * 4096)
        (pageCount newLen - pageCount oldLen)
        (space.inherited (alignDown oldAddr) (pageCount oldLen * 4096)).prot reached)
      (movable : flags % 2 ≠ 0)
      (placement : Placement space reached (pageCount newLen) (space.remapDest flags newAddr)
        targetSpace target)
      (undone : mapFresh keepPage (movedContent space.pml4 (alignDown oldAddr) (pageCount oldLen))
        space.pml4 (space.remapDest flags newAddr)
        (protToFlags (space.inherited (alignDown oldAddr) (pageCount oldLen * 4096)).prot) 0
        (pageCount newLen) target = some (false, next)) :
      RemapEffect space memory oldAddr oldLen newLen flags newAddr none targetSpace next
  | moved {reached target filled : MemoryState allocator} {targetSpace : AddressSpace}
      (longer : pageCount oldLen < pageCount newLen)
      (blocked : Blocked space memory (alignDown oldAddr + pageCount oldLen * 4096)
        (pageCount newLen - pageCount oldLen)
        (space.inherited (alignDown oldAddr) (pageCount oldLen * 4096)).prot reached)
      (movable : flags % 2 ≠ 0)
      (placement : Placement space reached (pageCount newLen) (space.remapDest flags newAddr)
        targetSpace target)
      (cleared : remapFixed flags newAddr = true → ∀ region ∈ targetSpace.regions,
        region.meets (space.remapDest flags newAddr)
          (space.remapDest flags newAddr + pageCount newLen * 4096) = false)
      (populated : mapFresh keepPage
        (movedContent space.pml4 (alignDown oldAddr) (pageCount oldLen)) space.pml4
        (space.remapDest flags newAddr)
        (protToFlags (space.inherited (alignDown oldAddr) (pageCount oldLen * 4096)).prot) 0
        (pageCount newLen) target = some (true, filled))
      {cut : AddressSpace × MemoryState allocator}
      (isCut : cut = targetSpace.cutPages filled (alignDown oldAddr) (pageCount oldLen)) :
      RemapEffect space memory oldAddr oldLen newLen flags newAddr
        (some (space.remapDest flags newAddr))
        { cut.1 with
          regions := cut.1.regions ++ [remapRegion (space.remapDest flags newAddr)
            (pageCount newLen)
            (space.inherited (alignDown oldAddr) (pageCount oldLen * 4096))] } cut.2

theorem remapTarget_placement {pages dest : Nat} (positive : 0 < pages)
    (inside : space.remapDest flags newAddr + pages * 4096 ≤ userTop)
    (chosen : space.mremapTarget memory (pages * 4096) flags newAddr =
      (dest, targetSpace, target)) :
    dest = space.remapDest flags newAddr ∧
      Placement space memory pages (space.remapDest flags newAddr) targetSpace target ∧
      (remapFixed flags newAddr = true → ∀ region ∈ targetSpace.regions,
        region.meets (space.remapDest flags newAddr)
          (space.remapDest flags newAddr + pages * 4096) = false) := by
  rw [remapDest, remapFixed] at inside ⊢
  rw [mremapTarget] at chosen
  split at chosen
  next fixed =>
    rw [if_pos fixed] at inside ⊢
    rw [munmap_pages (alignDown_aligned newAddr) inside] at chosen
    cases chosen
    refine ⟨rfl, .fixed (alignDown_aligned newAddr), ?_⟩
    intro _ part member
    rw [cutPages_regions space memory positive] at member
    rcases List.mem_flatMap.mp member with ⟨region, _, isPart⟩
    exact meets_of_mem_cutRegion isPart
  next notFixed =>
    rw [if_neg notFixed] at inside ⊢
    have placement := @pickAddr_placement _ memory space none pages
      (by rw [(pickAddr_none _).1]; exact inside)
    cases chosen
    rw [(pickAddr_none _).1] at placement ⊢
    exact ⟨rfl, placement, fun fixed => absurd fixed notFixed⟩

variable {first oldPages newPages : Nat} {answer : Option Nat}

theorem remap_add {pages : Nat} (inside : first + pages * 4096 ≤ userTop) :
    Word.add first (Word.mul pages pageSize) = first + pages * 4096 := by
  rw [mapLen_eq (by omega)]
  apply Word.add_eq
  rw [userTop_eq] at inside
  rw [modulus_eq]
  omega

theorem remapInPlace_effect {prot : Prot} {ok : Bool}
    (longer : oldPages < newPages) (inside : first + newPages * 4096 ≤ userTop)
    (called : space.mremapInPlace memory first oldPages newPages prot = some (ok, next)) :
    (ok = true ∧ (∀ region ∈ space.regions,
        region.meets (first + oldPages * 4096) (first + newPages * 4096) = false) ∧
      mapRange memory space.pml4 (first + oldPages * 4096) (newPages - oldPages)
        (protToFlags prot) = some (true, next)) ∨
    (ok = false ∧ Blocked space memory (first + oldPages * 4096) (newPages - oldPages) prot
      next) := by
  have range := pages_range first (le_of_lt longer)
  have shorter := inside_mono (le_of_lt longer) inside
  have extension : Word.add (first + oldPages * 4096) (Word.mul (newPages - oldPages) pageSize) =
      first + newPages * 4096 := by
    rw [← range] at inside ⊢
    exact remap_add inside
  rw [mremapInPlace] at called
  simp only [remap_add shorter, extension] at called
  split at called
  next occupied =>
    cases called
    rcases List.any_eq_true.mp occupied with ⟨region, member, meets⟩
    rw [← range] at meets
    exact .inr ⟨rfl, .occupied member meets⟩
  next notOccupied =>
    have free : ∀ region ∈ space.regions,
        region.meets (first + oldPages * 4096) (first + newPages * 4096) = false := by
      intro region member
      apply Bool.eq_false_iff.mpr
      intro meets
      exact notOccupied (List.any_eq_true.mpr ⟨region, member, meets⟩)
    cases ok with
    | false =>
      rw [← range] at free
      exact .inr ⟨rfl, .starved free called⟩
    | true => exact .inl ⟨rfl, free, called⟩

theorem remapExtend_eq (longer : oldPages < newPages) (inside : first + newPages * 4096 ≤ userTop) :
    space.mremapExtend first (Word.mul oldPages pageSize) (Word.mul newPages pageSize) source =
      { space with regions := space.extendedRegions first oldPages newPages source } := by
  have shorter := inside_mono (le_of_lt longer) inside
  have isOld : (fun region : VmaRegion => region.start == first &&
      region.stop == first + oldPages * 4096) = isExactly first oldPages := rfl
  simp only [mremapExtend, pushRegion, remap_add shorter, remap_add inside, isOld,
    extendedRegions, remapRegion]
  split <;> rfl

theorem remapShrink_eq (aligned : first % 4096 = 0)
    (notLonger : newPages ≤ oldPages) (inside : first + oldPages * 4096 ≤ userTop) :
    space.mremapShrink memory first oldPages newPages =
      ({ (space.cutPages memory (first + newPages * 4096) (oldPages - newPages)).1 with
        regions := updateFirst (·.start == first)
          (fun region => { region with stop := first + newPages * 4096 })
          (space.cutPages memory (first + newPages * 4096) (oldPages - newPages)).1.regions },
        (space.cutPages memory (first + newPages * 4096) (oldPages - newPages)).2) := by
  have newInside := inside_mono notLonger inside
  have range := pages_range first notLonger
  have length : Word.sub (oldPages * 4096) (newPages * 4096) = (oldPages - newPages) * 4096 := by
    rw [Word.sub_eq (by omega), Nat.sub_mul]
    rw [userTop_eq] at inside
    rw [modulus_eq]
    omega
  have cutting : (if newPages < oldPages then
      space.munmap memory (first + newPages * 4096) ((oldPages - newPages) * 4096)
      else (space, memory)) =
      space.cutPages memory (first + newPages * 4096) (oldPages - newPages) := by
    split
    next => exact munmap_pages (by omega) (by rw [range]; exact inside)
    next notShorter =>
      rw [Nat.sub_eq_zero_of_le (le_of_not_gt notShorter), cutPages, if_pos rfl]
  have oldLength := mapLen_eq (le_trans le_add_self inside)
  have newLength := mapLen_eq (le_trans le_add_self newInside)
  have newEnd := remap_add newInside
  rw [newLength] at newEnd
  simp only [mremapShrink, oldLength, newLength, newEnd, length, cutting]

theorem remapMove_effect (aligned : first % 4096 = 0) (positive : 0 < newPages)
    (old : first + oldPages * 4096 ≤ userTop)
    (dest : space.remapDest flags newAddr + newPages * 4096 ≤ userTop)
    (called : space.mremapMove memory first oldPages newPages flags newAddr source =
      some (answer, nextSpace, next)) :
    ∃ targetSpace target filled ok,
      Placement space memory newPages (space.remapDest flags newAddr) targetSpace target ∧
      mapFresh keepPage (movedContent space.pml4 first oldPages) space.pml4
        (space.remapDest flags newAddr) (protToFlags source.prot) 0 newPages target =
        some (ok, filled) ∧
      ((ok = false ∧ answer = none ∧ nextSpace = targetSpace ∧ next = filled) ∨
        (ok = true ∧ (remapFixed flags newAddr = true → ∀ region ∈ targetSpace.regions,
            region.meets (space.remapDest flags newAddr)
              (space.remapDest flags newAddr + newPages * 4096) = false) ∧
          answer = some (space.remapDest flags newAddr) ∧
          nextSpace =
            { (targetSpace.cutPages filled first oldPages).1 with
              regions := (targetSpace.cutPages filled first oldPages).1.regions ++
                [remapRegion (space.remapDest flags newAddr) newPages source] } ∧
          next = (targetSpace.cutPages filled first oldPages).2)) := by
  have oldLength := mapLen_eq (le_trans le_add_self old)
  have newLength := mapLen_eq (le_trans le_add_self dest)
  have newEnd := remap_add dest
  rw [newLength] at newEnd
  rw [mremapMove] at called
  simp only [oldLength, newLength] at called
  rcases chosen : space.mremapTarget memory (newPages * 4096) flags newAddr with
    ⟨picked, targetSpace, target⟩
  rcases remapTarget_placement positive dest chosen with ⟨isDest, placement, cleared⟩
  rw [chosen] at called
  simp only [Option.bind_eq_bind, Option.bind_eq_some_iff, Prod.exists, isDest,
    placement.sameRoot] at called
  rcases called with ⟨ok, filled, mapped, finished⟩
  refine ⟨targetSpace, target, filled, ok, placement, mapped, ?_⟩
  cases ok with
  | false =>
    cases finished
    exact .inl ⟨rfl, rfl, rfl, rfl⟩
  | true =>
    rw [if_pos rfl, munmap_pages aligned old, pushRegion, newEnd] at finished
    cases finished
    exact .inr ⟨rfl, cleared, rfl, rfl, rfl⟩

theorem mremap_effect (within : space.RemapWithin oldAddr oldLen newLen flags newAddr)
    (called : space.mremap memory oldAddr oldLen newLen flags newAddr =
      some (answer, nextSpace, next)) :
    RemapEffect space memory oldAddr oldLen newLen flags newAddr answer nextSpace next := by
  have aligned := alignDown_aligned oldAddr
  have oldLength : Word.mul (pageCount oldLen) pageSize = pageCount oldLen * 4096 :=
    mapLen_eq (le_trans le_add_self within.old)
  rw [mremap] at called
  simp only [oldLength] at called
  split at called
  next =>
    cases called
    exact .refused
  next =>
    split at called
    next zero =>
      rw [munmap_pages aligned within.old] at called
      cases called
      exact .removed (beq_iff_eq.mp zero)
    next nonzero =>
      rw [beq_iff_eq] at nonzero
      split at called
      next notLonger =>
        rw [remapShrink_eq aligned notLonger within.old] at called
        cases called
        exact .shrunk nonzero notLonger rfl
      next longer =>
        have longer := lt_of_not_ge longer
        have grown := within.grown longer
        simp only [mremapGrow, Option.bind_eq_bind, Option.bind_eq_some_iff, Prod.exists] at called
        rcases called with ⟨ok, reached, inPlace, finished⟩
        rcases remapInPlace_effect longer grown inPlace with
          ⟨isOk, clear, populated⟩ | ⟨notOk, blocked⟩
        · subst isOk
          rw [if_pos rfl, ← oldLength, remapExtend_eq longer grown, oldLength] at finished
          cases finished
          exact .extended longer clear populated
        subst notOk
        rw [if_neg Bool.false_ne_true] at finished
        split at finished
        next fixed =>
          cases finished
          exact .stuck longer blocked (beq_iff_eq.mp fixed)
        next movable =>
          rw [beq_iff_eq] at movable
          rcases remapMove_effect aligned (Nat.zero_lt_of_lt longer) within.old
            (within.moved longer movable) finished with
            ⟨targetSpace, target, filled, ok, placement, mapped, outcome⟩
          rcases outcome with ⟨failed, rfl, rfl, rfl⟩ |
            ⟨succeeded, cleared, rfl, rfl, rfl⟩
          · subst failed
            exact .stranded longer blocked movable placement mapped
          · subst succeeded
            exact .moved longer blocked movable placement cleared mapped rfl

theorem RemapEffect.sameRoot
    (effect : RemapEffect space memory oldAddr oldLen newLen flags newAddr answer nextSpace next) :
    nextSpace.pml4 = space.pml4 := by
  cases effect with
  | refused | extended | stuck => rfl
  | removed => rw [cutPages_space]
  | shrunk _ _ isCut =>
    simp only [isCut]
    rw [cutPages_space]
  | stranded _ _ _ placement => exact placement.sameRoot
  | moved _ _ _ placement _ _ isCut =>
    simp only [isCut]
    rw [cutPages_space]
    exact placement.sameRoot

end Qunix.Memory.Vmm.AddressSpace
