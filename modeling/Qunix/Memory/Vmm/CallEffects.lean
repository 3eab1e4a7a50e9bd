import Qunix.Memory.Vmm.Regions

/-! # What the memory calls do

Every call of `memory/vmm.rs` on addresses of the user half, read as cuts of the
region list, loops over pages and new regions. Nothing wraps there, so the ranges
are sums.
-/

namespace Qunix.Memory.Vmm.AddressSpace

open Foundation Arch MemoryState VmaRegion Word

variable {allocator : FrameAllocator} {memory next : MemoryState allocator}
variable {space nextSpace : AddressSpace}

/-! ## `munmap` -/

variable {addr first count : Nat} {target : MemoryState allocator} {targetSpace : AddressSpace}
  {source : Inherited}

theorem meets_of_mem_cutRegion {last : Nat} {region part : VmaRegion}
    (member : part ∈ cutRegion first last region) : part.meets first last = false := by
  rw [meets_eq_false]
  rw [cutRegion] at member
  grind

/-- Unmap `count` pages from `first` on. -/
def cutPages (space : AddressSpace) (memory : MemoryState allocator) (first count : Nat) :
    AddressSpace × MemoryState allocator :=
  if count = 0 then (space, memory)
  else
    ({ space with regions := space.regions.flatMap (cutRegion first (first + count * 4096)) },
      forPages releasePage memory space.pml4 first count)

theorem cutPages_memory (space : AddressSpace) (memory : MemoryState allocator)
    (first count : Nat) :
    (space.cutPages memory first count).2 = forPages releasePage memory space.pml4 first count := by
  rw [cutPages]
  split
  next none => rw [none, forPages]
  next => rfl

theorem cutPages_regions (space : AddressSpace) (memory : MemoryState allocator)
    (positive : 0 < count) :
    (space.cutPages memory first count).1.regions =
      space.regions.flatMap (cutRegion first (first + count * 4096)) := by
  rw [cutPages, if_neg (ne_of_gt positive)]

theorem cutPages_space (space : AddressSpace) (memory : MemoryState allocator) (first count : Nat) :
    (space.cutPages memory first count).1 =
      { space with regions := (space.cutPages memory first count).1.regions } := by
  rw [cutPages]
  split <;> rfl

/-- The pages that `munmap` visits. -/
def unmapCount (addr len : Nat) : Nat :=
  if len = 0 then 0 else ((addr + len + 4095) / 4096 * 4096 - alignDown addr) / 4096

variable {len mapFlags newBrk : Nat} {hint answer : Option Nat} {prot : Prot}
  {fileData : Option (List UInt8)}

theorem unmapCount_range {addr : Nat} (positive : 0 < len) :
    alignDown addr + unmapCount addr len * 4096 = (addr + len + 4095) / 4096 * 4096 := by
  rw [unmapCount, if_neg (ne_of_gt positive), alignDown, pageSize_eq]
  omega

theorem unmapCount_user (inside : addr + len ≤ userTop) :
    alignDown addr + unmapCount addr len * 4096 ≤ userTop := by
  by_cases positive : 0 < len
  · rw [unmapCount_range positive]
    rw [userTop_eq] at inside ⊢
    omega
  · rw [unmapCount, if_pos (by omega)]
    have below := alignDown_le addr
    omega

theorem munmap_fits (fits : addr + len + 4095 < modulus) :
    space.munmap memory addr len =
      space.cutPages memory (alignDown addr) (unmapCount addr len) := by
  by_cases positive : 0 < len
  · have range := @unmapCount_range len addr positive
    have last : alignUp (add addr len) = alignDown addr + unmapCount addr len * 4096 := by
      rw [range, add_eq (by omega), alignUp, pageSize_eq, add_eq fits, alignDown, pageSize_eq]
    have lastBound : alignDown addr + unmapCount addr len * 4096 < modulus := by
      rw [range]
      omega
    have counted : sub (alignDown addr + unmapCount addr len * 4096) (alignDown addr) /
        pageSize = unmapCount addr len := by
      rw [sub_eq le_self_add lastBound, pageSize_eq]
      omega
    have some : unmapCount addr len ≠ 0 := by
      intro none
      have lower := alignDown_le addr
      omega
    rw [munmap, if_neg (by rw [beq_iff_eq]; omega), last]
    simp only [counted]
    rw [cutPages, if_neg some]
  · have empty : len = 0 := by omega
    rw [empty, munmap, if_pos (beq_self_eq_true 0), unmapCount, if_pos rfl, cutPages,
      if_pos rfl]

theorem munmap_eq (inside : addr + len ≤ userTop) :
    space.munmap memory addr len =
      space.cutPages memory (alignDown addr) (unmapCount addr len) := by
  apply munmap_fits
  rw [userTop_eq] at inside
  rw [modulus_eq]
  omega

theorem munmap_pages (aligned : first % 4096 = 0) (inside : first + count * 4096 ≤ userTop) :
    space.munmap memory first (count * 4096) = space.cutPages memory first count := by
  have start : alignDown first = first := by
    rw [alignDown, pageSize_eq]
    omega
  have counted : unmapCount first (count * 4096) = count := by
    rw [unmapCount, start]
    split <;> omega
  rw [munmap_eq inside, start, counted]

/-! ## `mmap` -/

/-- Where `mmap` puts a mapping, if anywhere. -/
def mmapPlace (space : AddressSpace) (memory : MemoryState allocator) (hint : Option Nat)
    (len mapFlags : Nat) : Option Nat × AddressSpace × MemoryState allocator :=
  space.mmapTarget memory hint (mul (pageCount len) pageSize) mapFlags

theorem mmapTarget_none {mapLen : Nat}
    (refused : space.mmapTarget memory hint mapLen mapFlags = (none, nextSpace, next)) :
    nextSpace = space ∧ next = memory := by
  cases hint with
  | none =>
    simp only [mmapTarget] at refused
    split at refused
    · cases refused
      exact ⟨rfl, rfl⟩
    · cases refused
  | some hint =>
    simp only [mmapTarget] at refused
    split at refused
    · split at refused
      · cases refused
        exact ⟨rfl, rfl⟩
      · cases refused
    · cases refused

theorem pickAddr_none (size : Nat) : (space.pickAddr none size).1 = space.mmapBase ∧
    (space.pickAddr none size).2.pml4 = space.pml4 := by
  constructor <;> simp only [pickAddr]

/-- The address space and the memory into which `mmap` places a mapping. -/
inductive Placement (space : AddressSpace) (memory : MemoryState allocator) (pages addr : Nat) :
    AddressSpace → MemoryState allocator → Prop
  | fixed (aligned : addr % 4096 = 0) :
      Placement space memory pages addr (space.cutPages memory addr pages).1
        (space.cutPages memory addr pages).2
  | hinted (aligned : addr % 4096 = 0)
      (clear : ∀ region ∈ space.regions, region.meets addr (addr + pages * 4096) = false) :
      Placement space memory pages addr space memory
  | bumped (base : addr = space.mmapBase) :
      Placement space memory pages addr
        { space with mmapBase := addr + (pages * 4096 + 4096) } memory

theorem pickAddr_placement {pages : Nat}
    (inside : (space.pickAddr hint (pages * 4096)).1 + pages * 4096 ≤ userTop) :
    Placement space memory pages (space.pickAddr hint (pages * 4096)).1
      (space.pickAddr hint (pages * 4096)).2 memory := by
  have sum : ∀ addr, addr + pages * 4096 ≤ userTop →
      add addr (pages * 4096) = addr + pages * 4096 := by
    intro addr below
    apply add_eq
    rw [userTop_eq] at below
    rw [modulus_eq]
    omega
  have bumped : space.mmapBase + pages * 4096 ≤ userTop →
      Placement space memory pages space.mmapBase
        { space with
          mmapBase := add space.mmapBase (add (pages * 4096) pageSize) } memory := by
    intro below
    rw [userTop_eq] at below
    have base : space.mmapBase + (pages * 4096 + 4096) < modulus := by
      rw [modulus_eq]
      omega
    have stride : pages * 4096 + 4096 < modulus :=
      lt_of_le_of_lt le_add_self base
    rw [pageSize_eq, add_eq stride, add_eq base]
    exact .bumped rfl
  cases hint with
  | none => exact bumped inside
  | some hint =>
    simp only [pickAddr] at inside ⊢
    split at inside
    next accepted =>
      rw [if_pos accepted]
      rw [sum _ inside] at accepted
      simp only [Bool.and_eq_true, Bool.not_eq_true', List.any_eq_false] at accepted
      refine .hinted (alignDown_aligned hint) ?_
      intro region member
      exact Bool.eq_false_iff.mpr (accepted.2 region member)
    next refused =>
      rw [if_neg refused]
      exact bumped inside

theorem mmapTarget_placement {pages : Nat} (inside : addr + pages * 4096 ≤ userTop)
    (found : space.mmapTarget memory hint (pages * 4096) mapFlags =
      (some addr, targetSpace, target)) :
    Placement space memory pages addr targetSpace target := by
  simp only [mmapTarget] at found
  split at found
  next =>
    cases hint with
    | none => cases found
    | some hint =>
      simp only at found
      split at found
      next => cases found
      cases found
      rw [munmap_pages (alignDown_aligned hint) inside]
      exact .fixed (alignDown_aligned hint)
  next =>
    cases found
    exact pickAddr_placement inside

namespace Placement

variable {pages addr : Nat}

section

variable (placement : Placement space memory pages addr nextSpace next)
include placement

theorem sameRoot :
    nextSpace.pml4 = space.pml4 := by
  cases placement with
  | fixed => rw [cutPages_space]
  | hinted | bumped => rfl

theorem addr_aligned (base : space.mmapBase % 4096 = 0) : addr % 4096 = 0 := by
  cases placement with
  | fixed aligned | hinted aligned => exact aligned
  | bumped same => exact same ▸ base

end

end Placement

/-- The region that `mmap` records. -/
def mmapRegion (addr pages : Nat) (prot : Prot) (mapFlags : Nat)
    (fileData : Option (List UInt8)) : VmaRegion where
  start := addr
  stop := addr + pages * 4096
  prot := prot
  kind := mmapKind mapFlags fileData
  flags := mapFlags
  cow := false

/-- What `mmap` comes to. -/
inductive MmapEffect (space : AddressSpace) (memory : MemoryState allocator) (hint : Option Nat)
    (len : Nat) (prot : Prot) (mapFlags : Nat) (fileData : Option (List UInt8)) :
    Option Nat → AddressSpace → MemoryState allocator → Prop
  | refused : MmapEffect space memory hint len prot mapFlags fileData none space memory
  | failed {addr : Nat} {targetSpace : AddressSpace} {target next : MemoryState allocator}
      (place : space.mmapPlace memory hint len mapFlags = (some addr, targetSpace, target))
      (placement : Placement space memory (pageCount len) addr targetSpace target)
      (undone : mapFresh releasePage (fileContent fileData) space.pml4 addr (protToFlags prot) 0
        (pageCount len) target = some (false, next)) :
      MmapEffect space memory hint len prot mapFlags fileData none targetSpace next
  | mapped {addr : Nat} {targetSpace : AddressSpace} {target next : MemoryState allocator}
      (place : space.mmapPlace memory hint len mapFlags = (some addr, targetSpace, target))
      (placement : Placement space memory (pageCount len) addr targetSpace target)
      (populated : mapFresh releasePage (fileContent fileData) space.pml4 addr (protToFlags prot)
        0 (pageCount len) target = some (true, next)) :
      MmapEffect space memory hint len prot mapFlags fileData (some addr)
        { targetSpace with
          regions := targetSpace.regions ++
            [mmapRegion addr (pageCount len) prot mapFlags fileData] } next

theorem mmapFull_effect (user : ∀ addr, (space.mmapPlace memory hint len mapFlags).1 = some addr →
      addr + pageCount len * 4096 ≤ userTop)
    (called : space.mmapFull memory hint len prot mapFlags fileData =
      some (answer, nextSpace, next)) :
    MmapEffect space memory hint len prot mapFlags fileData answer nextSpace next := by
  rw [mmapFull] at called
  rcases place : space.mmapPlace memory hint len mapFlags with ⟨found, targetSpace, target⟩
  have target : space.mmapTarget memory hint (mul (pageCount len) pageSize) mapFlags =
      (found, targetSpace, target) := place
  rw [target] at called
  cases found with
  | none =>
    rcases mmapTarget_none target with ⟨sameSpace, sameMemory⟩
    cases called
    rw [sameSpace, sameMemory]
    exact .refused
  | some addr =>
    have inside := user addr (by rw [place])
    have mapLen : mul (pageCount len) pageSize = pageCount len * 4096 := by
      apply mapLen_eq
      omega
    rw [mapLen] at target called
    have placement := mmapTarget_placement inside target
    have stop : add addr (pageCount len * 4096) = addr + pageCount len * 4096 := by
      apply add_eq
      rw [userTop_eq] at inside
      rw [modulus_eq]
      omega
    simp only [Option.bind_eq_bind, Option.bind_eq_some_iff, Prod.exists, stop] at called
    rcases called with ⟨mapped, reached, populated, finished⟩
    rw [placement.sameRoot] at populated
    cases mapped with
    | false =>
      cases finished
      exact .failed place placement populated
    | true =>
      cases finished
      exact .mapped place placement populated

theorem MmapEffect.sameRoot
    (effect : MmapEffect space memory hint len prot mapFlags fileData answer nextSpace next) :
    nextSpace.pml4 = space.pml4 := by
  cases effect with
  | refused => rfl
  | failed place placement | mapped place placement => exact placement.sameRoot

/-! ## `brk` -/

/-- The region that the first growing `brk` records. -/
def heapRegion (start stop : Nat) : VmaRegion where
  start := start
  stop := stop
  prot := ⟨true, true, false⟩
  kind := .heap
  flags := mapPrivate
  cow := false

/-- The regions after the first heap region ends at `stop`. -/
def withHeap (space : AddressSpace) (stop : Nat) : List VmaRegion :=
  if space.regions.any isHeap then
    updateFirst isHeap (fun region => { region with stop := stop }) space.regions
  else space.regions ++ [heapRegion space.brkStart stop]

structure HeapBounds (space : AddressSpace) : Prop where
  aligned : space.brkStart % 4096 = 0
  ordered : space.brkStart ≤ space.brk
  user : space.brk ≤ userTop

/-- What `brk` comes to. -/
inductive BrkEffect (space : AddressSpace) (memory : MemoryState allocator) (newBrk : Nat) :
    Nat → AddressSpace → MemoryState allocator → Prop
  | idle (unmoved : newBrk < space.brkStart ∨ newBrk = space.brk) :
      BrkEffect space memory newBrk space.brk space memory
  | shrunk {count : Nat} (lower : space.brkStart ≤ newBrk) (smaller : newBrk < space.brk)
      (range : alignUp newBrk + count * 4096 = alignUp space.brk) :
      BrkEffect space memory newBrk newBrk
        { (space.cutPages memory (alignUp newBrk) count).1 with
          regions := updateFirst isHeap (fun region => { region with stop := alignUp newBrk })
            (space.cutPages memory (alignUp newBrk) count).1.regions
          brk := newBrk }
        (space.cutPages memory (alignUp newBrk) count).2
  | failed {count : Nat} {next : MemoryState allocator} (larger : space.brk < newBrk)
      (range : alignUp space.brk + count * 4096 = alignUp newBrk)
      (undone : mapRange memory space.pml4 (alignUp space.brk) count ⟨true, true, false, true⟩ =
        some (false, next)) :
      BrkEffect space memory newBrk space.brk space next
  | grown {count : Nat} {next : MemoryState allocator} (larger : space.brk < newBrk)
      (range : alignUp space.brk + count * 4096 = alignUp newBrk)
      (populated : mapRange memory space.pml4 (alignUp space.brk) count
        ⟨true, true, false, true⟩ = some (true, next)) :
      BrkEffect space memory newBrk newBrk
        { space with regions := space.withHeap (alignUp newBrk), brk := newBrk } next

theorem pages_between {low high : Nat} (ordered : low ≤ high) (below : high ≤ userTop) :
    ∃ count, alignUp low + count * 4096 = alignUp high ∧
      sub (alignUp high) (alignUp low) = count * 4096 := by
  have mono := alignUp_mono ordered below
  have lowAligned := alignUp_aligned (le_trans ordered below)
  have highAligned := alignUp_aligned below
  have bound : alignUp high < modulus := by
    have user := alignUp_le below
    rw [userTop_eq] at user
    rw [modulus_eq]
    omega
  refine ⟨(alignUp high - alignUp low) / 4096, by omega, ?_⟩
  rw [sub_eq mono bound]
  omega

theorem setBrk_effect {answer : Nat} (heap : space.HeapBounds) (user : newBrk ≤ userTop)
    (called : space.setBrk memory newBrk = some (answer, nextSpace, next)) :
    BrkEffect space memory newBrk answer nextSpace next := by
  have startAligned : alignUp space.brkStart = space.brkStart := by
    rw [alignUp_eq (le_trans heap.ordered heap.user)]
    have aligned := heap.aligned
    omega
  rw [setBrk] at called
  split at called
  next below =>
    cases called
    exact .idle (.inl below)
  next notBelow =>
    have lower : space.brkStart ≤ newBrk := le_of_not_gt notBelow
    have startBelow : space.brkStart ≤ alignUp newBrk := by
      rw [alignUp_eq user]
      omega
    simp only [startAligned, max_eq_left startBelow] at called
    split at called
    next smaller =>
      rcases pages_between (le_of_lt smaller) heap.user with ⟨count, range, len⟩
      have shrunk : (if alignUp newBrk < alignUp space.brk then
          space.munmap memory (alignUp newBrk) (sub (alignUp space.brk) (alignUp newBrk))
          else (space, memory)) = space.cutPages memory (alignUp newBrk) count := by
        split
        next =>
          have inside := range.trans_le (alignUp_le heap.user)
          rw [len, munmap_pages (alignUp_aligned user) inside]
        next same =>
          have empty : count = 0 := by omega
          rw [empty, cutPages, if_pos rfl]
      rw [shrunk] at called
      cases called
      exact .shrunk lower smaller range
    next notSmaller =>
      split at called
      next same =>
        cases called
        exact .idle (.inr (beq_iff_eq.mp same))
      next different =>
        have larger : space.brk < newBrk := by
          rw [beq_iff_eq] at different
          omega
        rcases pages_between (le_of_lt larger) user with ⟨count, range, len⟩
        have mapping : space.growHeap memory (alignUp space.brk) (alignUp newBrk) =
            mapRange memory space.pml4 (alignUp space.brk) count ⟨true, true, false, true⟩ := by
          have pages : count * 4096 / 4096 = count := by omega
          rw [growHeap, len, pageSize_eq, pages]
          split
          next => rfl
          next same =>
            have empty : count = 0 := by omega
            rw [empty, mapRange, mapFresh]
        simp only [mapping, Option.bind_eq_bind, Option.bind_eq_some_iff, Prod.exists] at called
        rcases called with ⟨mapped, reached, populated, finished⟩
        cases mapped with
        | false =>
          cases finished
          exact .failed larger range populated
        | true =>
          cases finished
          exact .grown larger range populated

end Qunix.Memory.Vmm.AddressSpace
