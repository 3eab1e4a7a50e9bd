import Qunix.Memory.Vmm.AccountHistory
import Qunix.Memory.Vmm.Remap

/-! # The regions of one address space

Runs of `mmap`, `munmap`, `brk` and `mremap` on an address space that starts empty.
-/

namespace Qunix.Memory.Vmm.AddressSpace

open Foundation Arch MemoryState VmaRegion

variable {allocator : FrameAllocator} {memory next : MemoryState allocator}
variable {space nextSpace : AddressSpace} {roots : Nat → Prop}

/-! ## What the calls keep -/

structure Arranged (space : AddressSpace) : Prop where
  neat : Neat space.regions
  user : ∀ region ∈ space.regions, region.stop ≤ userTop
  heap : space.HeapBounds
  base : space.mmapBase % 4096 = 0

theorem HeapBounds.transfer (heap : space.HeapBounds)
    (brkStart : nextSpace.brkStart = space.brkStart) (brk : nextSpace.brk = space.brk) :
    nextSpace.HeapBounds := by
  rcases heap with ⟨aligned, ordered, user⟩
  constructor <;> simp only [brkStart, brk] <;> assumption

variable {len mapFlags newBrk : Nat} {hint : Option Nat}

namespace Arranged

theorem placed (arranged : space.Arranged) : ∀ region ∈ space.regions, region.Placed := by
  intro region member
  rcases arranged.neat.aligned region member with ⟨start, stop⟩
  exact ⟨start, stop, le_of_lt (arranged.neat.nonempty region member),
    arranged.user region member⟩

theorem new (root : Nat) :
    (⟨root, [], initialBrkStart, initialBrkStart, initialMmapBase⟩ : AddressSpace).Arranged where
  neat := .nil
  user := fun _ member => absurd member List.not_mem_nil
  heap := ⟨(by decide : initialBrkStart % 4096 = 0), le_rfl,
    (by decide : initialBrkStart ≤ userTop)⟩
  base := (by decide : initialMmapBase % 4096 = 0)

section

variable (arranged : space.Arranged)
include arranged

theorem cutPages (memory : MemoryState allocator) {first count : Nat}
    (aligned : first % 4096 = 0) : (space.cutPages memory first count).1.Arranged where
  neat := arranged.neat.cutPages memory aligned
  user := by
    intro part member
    rcases mem_cutPages member with ⟨region, isRegion, isPart⟩
    exact le_trans isPart.narrow.2 (arranged.user region isRegion)
  heap := by
    rw [cutPages_space]
    exact arranged.heap.transfer rfl rfl
  base := by
    rw [cutPages_space]
    exact arranged.base

variable {addr : Nat} {regions : List VmaRegion} {answer : Option Nat}

theorem munmap (memory : MemoryState allocator)
    (inside : addr + len ≤ userTop) : (space.munmap memory addr len).1.Arranged := by
  rw [munmap_eq inside]
  exact arranged.cutPages memory (alignDown_aligned addr)

theorem placement {pages : Nat}
    (placement : Placement space memory pages addr nextSpace next) : nextSpace.Arranged := by
  cases placement with
  | fixed aligned => exact arranged.cutPages memory aligned
  | hinted => exact arranged
  | bumped base =>
    refine ⟨arranged.neat, arranged.user, arranged.heap.transfer rfl rfl, ?_⟩
    have aligned := arranged.base
    simp only
    omega

section

variable (user : ∀ region ∈ regions, region.stop ≤ userTop)
include user

omit arranged in
theorem user_updateFirst {test : VmaRegion → Bool} {stop : Nat} (below : stop ≤ userTop) :
    ∀ region ∈ updateFirst test (fun region => { region with stop := stop }) regions,
      region.stop ≤ userTop := by
  intro region member
  rcases mem_updateFirst member with old | ⟨old, _, _, changed⟩
  · exact user region old
  · rw [changed]
    exact below

omit arranged in
theorem user_append {added : VmaRegion} (below : added.stop ≤ userTop) :
    ∀ region ∈ regions ++ [added], region.stop ≤ userTop := by
  exact List.forall_mem_append.mpr ⟨user, List.forall_mem_singleton.mpr below⟩

end

theorem mmap {prot : Prot} {fileData : Option (List UInt8)}
    (clear : space.MmapClear memory hint len mapFlags)
    (effect : MmapEffect space memory hint len prot mapFlags fileData answer nextSpace next) :
    nextSpace.Arranged := by
  have neat := effect.neat clear arranged.base arranged.neat
  cases effect with
  | refused => exact arranged
  | failed _ placement => exact arranged.placement placement
  | @mapped addr targetSpace target next place placement populated =>
    have target := arranged.placement placement
    exact ⟨neat, user_append target.user (clear.user addr (by rw [place])),
      target.heap.transfer rfl rfl, target.base⟩

theorem brk {answer : Nat} (inside : space.HeapInside)
    (clear : space.BrkClear newBrk) (effect : BrkEffect space memory newBrk answer nextSpace next) :
    nextSpace.Arranged := by
  have neat := effect.neat arranged.heap inside clear arranged.neat
  have newEnd := alignUp_le clear.user
  cases effect with
  | idle | failed => exact arranged
  | @shrunk count lower smaller range =>
    have cut : (space.cutPages memory (alignUp newBrk) count).1.Arranged :=
      arranged.cutPages memory (alignUp_aligned clear.user)
    refine ⟨neat, user_updateFirst cut.user newEnd, ⟨cut.heap.aligned, ?_, clear.user⟩, cut.base⟩
    rw [cutPages_space]
    exact lower
  | @grown count next larger range populated =>
    refine ⟨neat, ?_, ⟨arranged.heap.aligned,
      le_trans arranged.heap.ordered (le_of_lt larger), clear.user⟩, arranged.base⟩
    simp only [withHeap]
    split
    next => exact user_updateFirst arranged.user newEnd
    next => exact user_append arranged.user newEnd

theorem mremap {oldAddr oldLen newLen flags newAddr : Nat}
    (clear : space.RemapClear oldAddr oldLen newLen flags newAddr)
    (effect : RemapEffect space memory oldAddr oldLen newLen flags newAddr answer nextSpace
      next) : nextSpace.Arranged := by
  have neat := effect.neat arranged.base clear arranged.neat
  have aligned := alignDown_aligned oldAddr
  cases effect with
  | refused | stuck => exact arranged
  | removed => exact arranged.cutPages memory aligned
  | @shrunk nonzero notLonger cut isCut =>
    have newEnd := inside_mono notLonger clear.within.old
    have cutArranged : cut.1.Arranged := by
      rw [isCut]
      exact arranged.cutPages memory (by omega)
    exact ⟨neat, user_updateFirst cutArranged.user newEnd, cutArranged.heap.transfer rfl rfl,
      cutArranged.base⟩
  | @extended next longer free populated =>
    have newEnd := clear.within.grown longer
    refine ⟨neat, ?_, arranged.heap.transfer rfl rfl, arranged.base⟩
    simp only [extendedRegions]
    split
    next => exact user_updateFirst arranged.user newEnd
    next => exact user_append arranged.user newEnd
  | stranded _ _ _ placement => exact arranged.placement placement
  | @moved reached target filled targetSpace longer blocked movable placement cleared populated
      cut isCut =>
      have cutArranged : cut.1.Arranged := by
        rw [isCut]
        exact (arranged.placement placement).cutPages filled aligned
      exact ⟨neat, user_append cutArranged.user (clear.within.moved longer movable),
        cutArranged.heap.transfer rfl rfl, cutArranged.base⟩

end

end Arranged

theorem BrkClear.not_covers {number : Nat} {region : VmaRegion} (clear : space.BrkClear newBrk)
    (heap : space.HeapBounds) (inside : space.HeapInside) (member : region ∈ space.regions)
    (lower : alignUp space.brk ≤ number * 4096) (upper : number * 4096 < alignUp newBrk) :
    ¬region.Covers number := by
  intro covers
  cases kind : isHeap region with
  | true => exact absurd (inside region member kind).2 (Nat.not_le.mpr
      (lt_of_le_of_lt lower covers.2))
  | false =>
    have rounded := alignUp_eq heap.user
    have ordered := heap.ordered
    exact not_covers_of_meets (clear.clear region member kind) (by omega) upper covers

/-- Only `MAP_FIXED` removes regions to make room. -/
theorem mmapPlace_regions (notFixed : ¬mapFlags / mapFixed % 2 ≠ 0) :
    (space.mmapPlace memory hint len mapFlags).2.1.regions = space.regions := by
  have unset : (mapFlags / mapFixed % 2 != 0) = false := by
    rw [bne_eq_false_iff_eq]
    exact Decidable.not_not.mp notFixed
  simp only [mmapPlace, mmapTarget, unset, Bool.false_eq_true, if_false, pickAddr]
  split
  next => rfl
  next => split <;> rfl

end Qunix.Memory.Vmm.AddressSpace

namespace Qunix.Memory.Vmm

open Foundation Arch MemoryState VmaRegion AddressSpace

/-! ## Runs -/

inductive RegionCall
  | mmap (hint : Option Nat) (len : Nat) (prot : Prot) (mapFlags : Nat)
      (fileData : Option (List UInt8))
  | munmap (addr len : Nat)
  | brk (newBrk : Nat)
  | mremap (oldAddr oldLen newLen flags newAddr : Nat)

structure Tenant (allocator : FrameAllocator) where
  space : AddressSpace
  memory : MemoryState allocator

namespace Tenant

variable {allocator : FrameAllocator} {tenant after : Tenant allocator} {call : RegionCall}
variable {others : Nat → Prop} (self : Tenant allocator)

def onCpu (cpu : Nat) : Tenant allocator :=
  { self with memory := { self.memory with cpu := cpu } }

def perform : RegionCall → Option (Tenant allocator)
  | .mmap hint len prot mapFlags fileData =>
    (self.space.mmapFull self.memory hint len prot mapFlags fileData).map fun result =>
      ⟨result.2.1, result.2.2⟩
  | .munmap addr len =>
    let unmapped := self.space.munmap self.memory addr len
    some ⟨unmapped.1, unmapped.2⟩
  | .brk newBrk =>
    (self.space.setBrk self.memory newBrk).map fun result => ⟨result.2.1, result.2.2⟩
  | .mremap oldAddr oldLen newLen flags newAddr =>
    (self.space.mremap self.memory oldAddr oldLen newLen flags newAddr).map fun result =>
      ⟨result.2.1, result.2.2⟩

/-- A user address space just made, beside those of other processes. -/
def Fresh (others : Nat → Prop) (tenant : Tenant allocator) : Prop :=
  ∃ before cr3, before.Sound others ∧
    newUser before cr3 = (some tenant.space, tenant.memory)

def openSystem (others : Nat → Prop) :
    TransitionSystem (Tenant allocator) (Nat × RegionCall) where
  Initial := Fresh others
  Step := fun tenant label next => (tenant.onCpu label.1).perform label.2 = some next

/-- What the call relies on and does not check. The heap is where `brk` left it unless
`mremap` has moved or enlarged it. -/
def Clear : RegionCall → Prop
  | .mmap hint len _ mapFlags _ => self.space.MmapClear self.memory hint len mapFlags
  | .munmap addr len => addr + len ≤ userTop
  | .brk newBrk => Machine.BrkIdle self.space newBrk ∨
      (self.space.HeapInside ∧ self.space.BrkClear newBrk)
  | .mremap oldAddr oldLen newLen flags newAddr =>
    self.space.RemapClear oldAddr oldLen newLen flags newAddr

structure ClearStep (tenant : Tenant allocator) (label : Nat × RegionCall)
    (next : Tenant allocator) : Prop where
  clear : (tenant.onCpu label.1).Clear label.2
  taken : (tenant.onCpu label.1).perform label.2 = some next

def clearSystem (others : Nat → Prop) :
    TransitionSystem (Tenant allocator) (Nat × RegionCall) where
  Initial := Fresh others
  Step := ClearStep

/-- The pages that the call is asked to give up or to replace. -/
def GivesUp : RegionCall → Nat → Prop
  | .mmap hint len _ mapFlags _, number =>
    mapFlags / mapFixed % 2 ≠ 0 ∧ self.space.MmapRange self.memory hint len mapFlags number
  | .munmap addr len, number => Within (alignDown addr) (unmapCount addr len) number
  | .brk newBrk, number => self.space.brkStart ≤ newBrk ∧
      alignUp newBrk ≤ number * 4096 ∧ number * 4096 < alignUp self.space.brk
  | .mremap oldAddr oldLen newLen flags newAddr, number =>
    Within (alignDown oldAddr) (pageCount oldLen) number ∨
      (pageCount oldLen < pageCount newLen ∧ flags % 2 ≠ 0 ∧ remapFixed flags newAddr = true ∧
        Within (alignDown newAddr) (pageCount newLen) number)

/-- Every other page of a region keeps its entry. -/
def Spares (call : RegionCall) (next : Tenant allocator) : Prop :=
  ∀ region ∈ self.space.regions, ∀ number, region.Covers number → ¬self.GivesUp call number →
    next.memory.page self.space.pml4 number = self.memory.page self.space.pml4 number

structure InOrder (tenant : Tenant allocator) (others : Nat → Prop) : Prop where
  sound : tenant.memory.Sound (withRoot others tenant.space.pml4)
  arranged : tenant.space.Arranged

theorem Fresh.inOrder (fresh : Fresh others tenant) : tenant.InOrder others := by
  rcases fresh with ⟨before, cr3, sound, created⟩
  rcases newUser_some sound.layout created with ⟨creates, empty⟩
  refine ⟨⟨creates.layout, ?_⟩, ?_⟩
  · intro frame
    rw [creates.refcounts]
    exact (sound.counted frame).mono (fun _ isHolder => creates.maps isHolder) le_rfl
  · rw [empty]
    exact .new tenant.space.pml4

section

variable (inOrder : tenant.InOrder others)
include inOrder

theorem InOrder.replace {range : Nat → Prop} {nextSpace : AddressSpace}
    {next : MemoryState allocator}
    (root : nextSpace.pml4 = tenant.space.pml4)
    (sound : next.Sound (withRoot others tenant.space.pml4)) (arranged : nextSpace.Arranged)
    (outside : ∀ {number}, number < userPages → ¬range number →
      next.page tenant.space.pml4 number = tenant.memory.page tenant.space.pml4 number)
    (spared : ∀ region ∈ tenant.space.regions, ∀ number, region.Covers number →
      range number → tenant.GivesUp call number) :
    InOrder ⟨nextSpace, next⟩ others ∧ tenant.Spares call ⟨nextSpace, next⟩ := by
  refine ⟨⟨?_, arranged⟩, ?_⟩
  · rw [root]
    exact sound
  · intro region member number covers keeps
    have below := inOrder.arranged.user region member
    have user : number < userPages := by
      have upper := covers.2
      rw [userTop_eq] at below
      rw [userPages_eq]
      omega
    exact outside user fun isIn => keeps (spared region member number covers isIn)

theorem InOrder.perform (clear : tenant.Clear call) (taken : tenant.perform call = some after) :
    after.InOrder others ∧ tenant.Spares call after := by
  have sound := inOrder.sound
  have arranged := inOrder.arranged
  have isRoot : withRoot others tenant.space.pml4 tenant.space.pml4 := .inr rfl
  cases call with
  | mmap hint len prot mapFlags fileData =>
    rcases Option.map_eq_some_iff.mp taken with ⟨⟨answer, nextSpace, next⟩, called, rfl⟩
    have effect := mmapFull_effect clear.user called
    have footprint := effect.footprint sound isRoot arranged.base clear.user
    refine InOrder.replace inOrder footprint.root footprint.sound (arranged.mmap clear effect)
      (fun user notIn => (footprint.outside user notIn).page) ?_
    intro region member number covers isIn
    refine ⟨?_, isIn⟩
    intro fixed
    rcases isIn with ⟨addr, place, lower, upper⟩
    have apart := clear.clear addr place region
    rw [mmapPlace_regions (Decidable.not_not.mpr fixed)] at apart
    exact not_covers_of_meets (apart member) lower upper covers
  | munmap addr len =>
    cases taken
    have footprint := munmap_footprint sound isRoot clear
    exact InOrder.replace inOrder footprint.root footprint.sound
      (arranged.munmap tenant.memory clear)
      (fun user notIn => (footprint.outside user notIn).page) fun _ _ _ _ isIn => isIn
  | brk newBrk =>
    rcases Option.map_eq_some_iff.mp taken with ⟨⟨answer, nextSpace, next⟩, called, rfl⟩
    rcases clear with idle | ⟨inside, brkClear⟩
    · rw [Machine.setBrk_idle idle] at called
      cases called
      exact ⟨inOrder, fun _ _ _ _ _ => rfl⟩
    have effect := setBrk_effect arranged.heap brkClear.user called
    have footprint := effect.footprint sound isRoot arranged.heap inside arranged.neat
      brkClear.user
    refine InOrder.replace inOrder footprint.root footprint.sound
      (arranged.brk inside brkClear effect)
      (fun user notIn => (footprint.outside user notIn).page) ?_
    intro region member number covers isIn
    rcases isIn with ⟨lower, grown | shrunk⟩
    · exact absurd covers (brkClear.not_covers arranged.heap inside member grown.1 grown.2)
    · exact ⟨lower, shrunk⟩
  | mremap oldAddr oldLen newLen flags newAddr =>
    rcases Option.map_eq_some_iff.mp taken with ⟨⟨answer, nextSpace, next⟩, called, rfl⟩
    have effect := mremap_effect clear.within called
    rcases effect.pages sound isRoot arranged.base clear.within with ⟨nextSound, outside⟩
    refine InOrder.replace inOrder effect.sameRoot nextSound (arranged.mremap clear effect)
      outside ?_
    intro region member number covers isIn
    rcases isIn with old | ⟨longer, ⟨tail, free⟩ | ⟨movable, dest⟩⟩
    · exact .inl old
    · rcases lt_or_ge (number * 4096) (alignDown oldAddr + pageCount oldLen * 4096) with
        before | beyond
      · exact .inl ⟨tail.1, before⟩
      · exact absurd covers (not_covers_of_meets (free region member) beyond tail.2)
    · cases fixed : remapFixed flags newAddr with
      | true =>
        rw [remapDest, fixed] at dest
        exact .inr ⟨longer, movable, fixed, dest⟩
      | false =>
        rw [remapDest, fixed] at dest
        exact absurd covers
          (not_covers_of_meets (clear.move longer movable fixed region member) dest.1 dest.2)

theorem InOrder.onCpu (cpu : Nat) :
    (tenant.onCpu cpu).InOrder others where
  sound := ⟨inOrder.sound.layout.transfer rfl rfl, inOrder.sound.counted⟩
  arranged := inOrder.arranged

end

theorem clear_inOrder (reachable : (clearSystem others).Reachable tenant) :
    tenant.InOrder others := by
  apply reachable.invariant
  · intro fresh isFresh
    exact Fresh.inOrder isFresh
  · intro before label next inOrder step
    exact ((inOrder.onCpu label.1).perform step.clear step.taken).1

/-- In a run of clear calls the regions are page-aligned, not empty and pairwise apart,
and no call maps over a page of a region that it was not asked to replace. -/
theorem clear_regions_apart (reachable : (clearSystem others).Reachable tenant) :
    Neat tenant.space.regions ∧
      ∀ label next, ClearStep tenant label next →
        (tenant.onCpu label.1).Spares label.2 next := by
  have inOrder := clear_inOrder reachable
  refine ⟨inOrder.arranged.neat, ?_⟩
  intro label next step
  exact ((inOrder.onCpu label.1).perform step.clear step.taken).2

/-! ## A run that is not clear -/

def advance (tenant : Tenant allocator) (call : RegionCall) : Tenant allocator :=
  ((tenant.onCpu 0).perform call).getD tenant

theorem advance_taken (succeeds : ((tenant.onCpu 0).perform call).isSome = true) :
    (tenant.onCpu 0).perform call = some (tenant.advance call) := by
  rcases Option.isSome_iff_exists.mp succeeds with ⟨next, taken⟩
  rw [advance, taken]
  rfl

def firstTenant : Tenant Phys.allocator where
  space := ((newUser Machine.sixteenFrames.memory 0).1).getD ⟨0, [], 0, 0, 0⟩
  memory := (newUser Machine.sixteenFrames.memory 0).2

theorem firstTenant_fresh : Fresh Machine.sixteenFrames.roots firstTenant := by
  have started := Machine.sixteenFrames_started
  refine ⟨Machine.sixteenFrames.memory, 0, started.safe.sound started.unshared.few, ?_⟩
  have created : (newUser Machine.sixteenFrames.memory 0).1.isSome = true := by decide +kernel
  rcases Option.isSome_iff_exists.mp created with ⟨space, found⟩
  apply Prod.ext
  · simp only [firstTenant, found, Option.getD_some]
  · rfl

def heapTenant : Tenant Phys.allocator := firstTenant.advance (.brk (initialBrkStart + 4096))

/-- A mapping right behind the heap, where the caller asked for it. -/
def neighbour : Tenant Phys.allocator :=
  heapTenant.advance (.mmap (some (initialBrkStart + 4096)) 4096 ⟨true, true, false⟩ 0x22 none)

theorem firstTenant_regions : firstTenant.space.regions = [] := by decide +kernel

theorem heapTenant_taken : (firstTenant.onCpu 0).perform (.brk (initialBrkStart + 4096)) =
    some heapTenant :=
  advance_taken (by decide +kernel)

theorem heapTenant_clear : (clearSystem Machine.sixteenFrames.roots).Reachable heapTenant := by
  apply (TransitionSystem.Reachable.initial firstTenant_fresh).step
  exact (⟨.inr (brkClear_empty firstTenant_regions (by decide)), heapTenant_taken⟩ :
    ClearStep firstTenant (0, .brk (initialBrkStart + 4096)) heapTenant)

/-- The heap page stays where it is in whatever clear call comes next. -/
theorem clear_regions_apart_heap :
    (clearSystem Machine.sixteenFrames.roots).Reachable heapTenant ∧
    heapTenant.space.regions = [heapRegion initialBrkStart (initialBrkStart + 4096)] ∧
    Neat heapTenant.space.regions ∧
      ∀ label next, ClearStep heapTenant label next →
        (heapTenant.onCpu label.1).Spares label.2 next :=
  ⟨heapTenant_clear, by decide +kernel, clear_regions_apart heapTenant_clear⟩

/-- The heap grows over the mapping behind it. -/
def overgrown : Tenant Phys.allocator := neighbour.advance (.brk (initialBrkStart + 8192))

theorem open_advance (reachable : (openSystem others).Reachable tenant)
    (succeeds : ((tenant.onCpu 0).perform call).isSome = true) :
    (openSystem others).Reachable (tenant.advance call) := by
  have taken : (openSystem others).Step tenant (0, call) (tenant.advance call) :=
    advance_taken succeeds
  exact reachable.step taken

theorem neighbour_reachable : (openSystem Machine.sixteenFrames.roots).Reachable neighbour := by
  apply open_advance
  · apply open_advance
    · exact .initial firstTenant_fresh
    · decide +kernel
  · decide +kernel

/-- `brk` gives the page of another mapping to the heap. -/
theorem brk_maps_over :
    (openSystem Machine.sixteenFrames.roots).Reachable neighbour ∧
    Neat neighbour.space.regions ∧
    (neighbour.onCpu 0).perform (.brk (initialBrkStart + 8192)) = some overgrown ∧
    ¬(neighbour.onCpu 0).Spares (.brk (initialBrkStart + 8192)) overgrown ∧
    ¬Neat overgrown.space.regions := by
  let mapping := mmapRegion (initialBrkStart + 4096) 1 ⟨true, true, false⟩ 0x22 none
  let heap := heapRegion initialBrkStart (initialBrkStart + 8192)
  have before : neighbour.space.regions =
      [heapRegion initialBrkStart (initialBrkStart + 4096), mapping] := by decide +kernel
  have afterwards : overgrown.space.regions = [heap, mapping] := by decide +kernel
  refine ⟨neighbour_reachable, ?_, advance_taken (by decide +kernel), ?_, ?_⟩
  · rw [before]
    refine ⟨by decide, by decide, List.pairwise_pair.mpr (.inl ?_)⟩
    decide
  · intro spares
    refine absurd (spares mapping ?_ ((initialBrkStart + 4096) / 4096) ?_ ?_) ?_
    · decide +kernel
    · decide
    · intro given
      exact absurd given.2.1 (by decide)
    · decide +kernel
  · rw [afterwards]
    intro neat
    rcases @Neat.of_mem _ neat heap mapping (by decide) (by decide) (by decide) with low | high
    · exact absurd low (by decide)
    · exact absurd high (by decide)

end Tenant

end Qunix.Memory.Vmm
