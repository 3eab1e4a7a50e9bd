import Qunix.Memory.Vmm.RemapEffects

/-! # What the memory system calls keep invariant

One address space changes at a time here. Its regions stay in order, its pages
stay backed by regions that allow what the page allows, and a page that is kept
keeps its nature, shared or private.
-/

namespace Qunix.Memory.Vmm.AddressSpace

open Foundation Arch MemoryState VmaRegion List

variable {allocator : FrameAllocator}

def Private (self : AddressSpace) (number : Nat) : Prop :=
  ∃ region ∈ self.regions, region.Covers number ∧ region.isShared = false

structure Tidy (space : AddressSpace) : Prop where
  placed : ∀ region ∈ space.regions, region.Placed
  separated : ∀ left ∈ space.regions, ∀ right ∈ space.regions, ∀ number,
    left.Covers number → right.Covers number → left.isShared = right.isShared
  cowWritable : ∀ region ∈ space.regions, region.cow = true → region.prot.write = true
  heap : ∀ region ∈ space.regions, region.kind = .heap →
    region.isShared = false ∧ region.prot.write = true ∧ region.start < region.stop ∧
    space.brkStart ≤ region.start ∧ region.stop ≤ alignUp space.brk
  brkStart : space.brkStart % 4096 = 0
  brkOrdered : space.brkStart ≤ space.brk
  brkBelow : space.brk ≤ userTop
  mmapBase : space.mmapBase % 4096 = 0

/-- Every mapped page is covered, and by a writable region if it is writable or
waits to be copied. -/
structure Backed (memory : MemoryState allocator) (space : AddressSpace) : Prop where
  covered : ∀ {number entry}, number < userPages → memory.page space.pml4 number = some entry →
    ∃ region ∈ space.regions, region.Covers number
  writable : ∀ {number entry}, number < userPages → memory.page space.pml4 number = some entry →
    entry.flags.writable = true ∨ entry.flags.cow = true →
    ∃ region ∈ space.regions, region.Covers number ∧ region.prot.write = true

/-- One address space changed, and with it pages under its root only. -/
structure Evolves (memory : MemoryState allocator) (space : AddressSpace)
    (next : MemoryState allocator) (nextSpace : AddressSpace) (roots : Nat → Prop) : Prop where
  sound : next.Sound roots
  root : nextSpace.pml4 = space.pml4
  tidy : nextSpace.Tidy
  backed : Backed next nextSpace
  elsewhere : ∀ {other number}, roots other → number < userPages → other ≠ space.pml4 →
    next.page other number = memory.page other number
  here : ∀ {number entry}, number < userPages → next.page space.pml4 number = some entry →
    (memory.page space.pml4 number = some entry ∧
      (nextSpace.Private number ↔ space.Private number)) ∨
    next.Sole roots space.pml4 number entry.frame

variable {memory next last : MemoryState allocator} {space nextSpace lastSpace : AddressSpace}
variable {roots : Nat → Prop}

theorem Backed.mono (backed : Backed memory space)
    (kept : ∀ {number entry}, number < userPages → next.page space.pml4 number = some entry →
      memory.page space.pml4 number = some entry) : Backed next space :=
  ⟨fun user present => backed.covered user (kept user present),
    fun user present => backed.writable user (kept user present)⟩

namespace Evolves

theorem refreshes (evolves : Evolves memory space next nextSpace roots) :
    Refreshes memory next roots space.pml4 where
  sound := evolves.sound
  elsewhere := evolves.elsewhere
  here := fun user present => (evolves.here user present).imp And.left id

theorem trans (left : Evolves memory space next nextSpace roots)
    (right : Evolves next nextSpace last lastSpace roots) :
    Evolves memory space last lastSpace roots := by
  have rightRefreshes := right.refreshes
  rw [left.root] at rightRefreshes
  have both := left.refreshes.trans rightRefreshes
  refine ⟨right.sound, right.root.trans left.root, right.tidy, right.backed, both.elsewhere, ?_⟩
  intro number entry user present
  have presentRight := present
  rw [← left.root] at presentRight
  rcases right.here user presentRight with ⟨kept, sameRight⟩ | sole
  · rw [left.root] at kept
    rcases left.here user kept with ⟨old, sameLeft⟩ | sole
    · exact .inl ⟨old, sameRight.trans sameLeft⟩
    · exact .inr (rightRefreshes.sole user present sole)
  · exact .inr (left.root ▸ sole)

end Evolves

/-! ## `munmap` -/

variable {addr len first mapFlags newBrk : Nat} {region : VmaRegion} {hint : Option Nat}
  {touched : Nat → Prop}

variable {flags : PageFlags} {number count : Nat} {regions : List VmaRegion}

theorem covers_of_mem_cutRegion {last : Nat} {part : VmaRegion}
    (member : part ∈ cutRegion first last region) (covers : part.Covers number) :
    region.Covers number ∧ ¬(first ≤ number * 4096 ∧ number * 4096 < last) :=
  (covers_cutRegion number).mp ⟨part, member, covers⟩

theorem exists_part {last : Nat} (member : region ∈ space.regions) (covers : region.Covers number)
    (outside : ¬(first ≤ number * 4096 ∧ number * 4096 < last)) :
    ∃ part ∈ space.regions.flatMap (cutRegion first last),
      part.Covers number ∧ part.Alike region := by
  rcases (covers_cutRegion number).mpr ⟨covers, outside⟩ with ⟨part, isPart, partCovers⟩
  exact ⟨part, mem_flatMap.mpr ⟨region, member, isPart⟩, partCovers, alike_of_mem_cutRegion isPart⟩

theorem Tidy.cut (tidy : space.Tidy) {first last : Nat} (firstAligned : first % 4096 = 0)
    (lastAligned : last % 4096 = 0) :
    Tidy { space with regions := space.regions.flatMap (cutRegion first last) } := { tidy with
  placed := by
    intro part member
    rcases mem_flatMap.mp member with ⟨region, isRegion, isPart⟩
    exact (bounds_of_mem_cutRegion isPart firstAligned lastAligned (tidy.placed _ isRegion)).1
  separated := by
    intro left leftMember right rightMember number leftCovers rightCovers
    rcases mem_flatMap.mp leftMember with ⟨leftRegion, isLeft, leftPart⟩
    rcases mem_flatMap.mp rightMember with ⟨rightRegion, isRight, rightPart⟩
    rw [(alike_of_mem_cutRegion leftPart).isShared, (alike_of_mem_cutRegion rightPart).isShared]
    exact tidy.separated _ isLeft _ isRight number
      (covers_of_mem_cutRegion leftPart leftCovers).1
      (covers_of_mem_cutRegion rightPart rightCovers).1
  cowWritable := by
    intro part member isCow
    rcases mem_flatMap.mp member with ⟨region, isRegion, isPart⟩
    have alike := alike_of_mem_cutRegion isPart
    rw [alike.prot]
    exact tidy.cowWritable _ isRegion (alike.cow ▸ isCow)
  heap := by
    intro part member isHeap
    rcases mem_flatMap.mp member with ⟨region, isRegion, isPart⟩
    have alike := alike_of_mem_cutRegion isPart
    have bounds := bounds_of_mem_cutRegion isPart firstAligned lastAligned
      (tidy.placed _ isRegion)
    rcases tidy.heap _ isRegion (alike.kind ▸ isHeap) with
      ⟨isPrivate, writable, nonempty, above, below⟩
    refine ⟨alike.isShared ▸ isPrivate, alike.prot ▸ writable, ?_,
      le_trans above bounds.2.1, le_trans bounds.2.2 below⟩
    exact nonempty_of_mem_cutRegion isPart nonempty }

theorem mapRange_refreshes {root : Nat} {ok : Bool} (sound : memory.Sound roots)
    (isRoot : roots root) (inside : addr + count * 4096 ≤ userTop)
    (mapped : mapRange memory root addr count flags = some (ok, next)) :
    Refreshes memory next roots root := by
  rcases mapRange_spec sound isRoot (fun index => pageNumber_user inside) mapped with
    ⟨_, populates⟩ | ⟨_, _, _, unmaps⟩
  · exact populates.refreshes isRoot
  · exact unmaps.refreshes isRoot

theorem Evolves.refl (sound : memory.Sound roots) (tidy : space.Tidy)
    (backed : Backed memory space) : Evolves memory space memory space roots :=
  ⟨sound, rfl, tidy, backed, fun _ _ _ => rfl, fun _ present => .inl ⟨present, Iff.rfl⟩⟩

section

variable (sound : memory.Sound roots) (isRoot : roots space.pml4) (tidy : space.Tidy)
  (backed : Backed memory space)

include sound isRoot tidy backed

theorem cutPages_evolves {count : Nat} (aligned : first % 4096 = 0)
    (inside : first + count * 4096 ≤ userTop) :
    Evolves memory space (space.cutPages memory first count).2
      (space.cutPages memory first count).1 roots := by
  rw [cutPages]
  split
  next => exact .refl sound tidy backed
  have touched := @touched_iff first count inside aligned
  have unmaps := forPages_releasePage sound isRoot fun index => @pageNumber_user _ _ inside index
  have kept : ∀ {number entry}, number < userPages →
      (forPages releasePage memory space.pml4 first count).page space.pml4 number = some entry →
      memory.page space.pml4 number = some entry ∧
        ¬(first ≤ number * 4096 ∧ number * 4096 < first + count * 4096) := by
    intro number entry numberUser present
    rw [← touched]
    exact unmaps.kept isRoot numberUser present
  refine ⟨unmaps.sound, rfl, tidy.cut aligned (by omega), ⟨?_, ?_⟩,
    (unmaps.refreshes isRoot).elsewhere, ?_⟩
  · intro number entry numberUser present
    rcases kept numberUser present with ⟨old, outside⟩
    rcases backed.covered numberUser old with ⟨region, member, covers⟩
    rcases exists_part member covers outside with ⟨part, isPart, partCovers, _⟩
    exact ⟨part, isPart, partCovers⟩
  · intro number entry numberUser present allows
    rcases kept numberUser present with ⟨old, outside⟩
    rcases backed.writable numberUser old allows with ⟨region, member, covers, writable⟩
    rcases exists_part member covers outside with ⟨part, isPart, partCovers, alike⟩
    exact ⟨part, isPart, partCovers, alike.prot ▸ writable⟩
  · intro number entry numberUser present
    rcases kept numberUser present with ⟨old, outside⟩
    refine .inl ⟨old, ?_⟩
    constructor
    · intro isPrivate
      rcases isPrivate with ⟨part, member, covers, unshared⟩
      rcases mem_flatMap.mp member with ⟨region, isRegion, isPart⟩
      exact ⟨region, isRegion, (covers_of_mem_cutRegion isPart covers).1,
        (alike_of_mem_cutRegion isPart).isShared ▸ unshared⟩
    · intro isPrivate
      rcases isPrivate with ⟨region, member, covers, unshared⟩
      rcases exists_part member covers outside with ⟨part, isPart, partCovers, alike⟩
      exact ⟨part, isPart, partCovers, alike.isShared ▸ unshared⟩

theorem munmap_evolves (inside : addr + len ≤ userTop) :
    Evolves memory space (space.munmap memory addr len).2 (space.munmap memory addr len).1
      roots := by
  rw [munmap_eq inside]
  exact cutPages_evolves sound isRoot tidy backed (alignDown_aligned addr) (unmapCount_user inside)

theorem Evolves.grow (grows : Grows memory next roots) :
    Evolves memory space next space roots := by
  have kept : ∀ {number entry}, number < userPages → next.page space.pml4 number = some entry →
      memory.page space.pml4 number = some entry :=
    fun user present => (grows.page isRoot user).symm.trans present
  exact ⟨grows.sound sound, rfl, tidy, backed.mono kept,
    fun isOther user _ => grows.page isOther user,
    fun user present => .inl ⟨kept user present, Iff.rfl⟩⟩

theorem Placement.evolves {pages : Nat} (inside : addr + pages * 4096 ≤ userTop)
    (placement : Placement space memory pages addr nextSpace next) :
    Evolves memory space next nextSpace roots := by
  cases placement with
  | fixed aligned => exact cutPages_evolves sound isRoot tidy backed aligned inside
  | hinted => exact .refl sound tidy backed
  | bumped =>
    have aligned := tidy.mmapBase
    exact ⟨sound, rfl, { tidy with mmapBase := by simp only; omega },
      ⟨backed.covered, backed.writable⟩, fun _ _ _ => rfl, fun _ kept => .inl ⟨kept, Iff.rfl⟩⟩

end

/-! ## `mmap` -/

/-- The mapping lies in the user half and meets no region of the other nature,
shared or private. -/
structure MmapFits (space : AddressSpace) (memory : MemoryState allocator) (hint : Option Nat)
    (len mapFlags : Nat) : Prop where
  short : len ≤ userTop
  user : ∀ addr, (space.mmapPlace memory hint len mapFlags).1 = some addr →
    addr + pageCount len * 4096 ≤ userTop
  alike : ∀ addr, (space.mmapPlace memory hint len mapFlags).1 = some addr →
    ∀ region ∈ (space.mmapPlace memory hint len mapFlags).2.1.regions,
      region.meets addr (addr + pageCount len * 4096) = true →
      region.isShared = (mapFlags % 2 != 0)

theorem Unmaps.evolves (isRoot : roots space.pml4) (tidy : space.Tidy)
    (backed : Backed memory space) (unmaps : Unmaps memory next roots space.pml4 touched) :
    Evolves memory space next space roots := by
  exact ⟨unmaps.sound, rfl, tidy,
    backed.mono fun user present => (unmaps.kept isRoot user present).1,
    (unmaps.refreshes isRoot).elsewhere,
    fun user present => .inl ⟨(unmaps.kept isRoot user present).1, Iff.rfl⟩⟩

theorem Tidy.push (tidy : space.Tidy) {region : VmaRegion} (placed : region.Placed)
    (notCow : region.cow = false) (notHeap : region.kind ≠ .heap)
    (alike : ∀ other ∈ space.regions, ∀ number, other.Covers number → region.Covers number →
      other.isShared = region.isShared) :
    Tidy { space with regions := space.regions ++ [region] } := { tidy with
  placed := forall_mem_append.mpr ⟨tidy.placed, forall_mem_singleton.mpr placed⟩
  separated := by
    intro left leftMember right rightMember number leftCovers rightCovers
    rcases mem_append.mp leftMember with isLeft | isLeft
    · rcases mem_append.mp rightMember with isRight | isRight
      · exact tidy.separated left isLeft right isRight number leftCovers rightCovers
      · rw [mem_singleton.mp isRight] at rightCovers ⊢
        exact alike left isLeft number leftCovers rightCovers
    · rw [mem_singleton.mp isLeft] at leftCovers ⊢
      rcases mem_append.mp rightMember with isRight | isRight
      · exact (alike right isRight number rightCovers leftCovers).symm
      · rw [mem_singleton.mp isRight]
  cowWritable := forall_mem_append.mpr ⟨tidy.cowWritable,
    forall_mem_singleton.mpr fun isCow => Bool.noConfusion (notCow.symm.trans isCow)⟩
  heap := forall_mem_append.mpr ⟨tidy.heap,
    forall_mem_singleton.mpr fun isHeap => absurd isHeap notHeap⟩ }

/-- Each region is still there, or a larger one in its place. -/
def Widened (regions wider : List VmaRegion) : Prop :=
  ∀ region ∈ regions, ∃ larger ∈ wider,
    (∀ number, region.Covers number → larger.Covers number) ∧ larger.Alike region

/-- New pages lie in regions that allow what their flags allow. -/
theorem Populates.evolves (isRoot : roots space.pml4) (backed : Backed memory space)
    (tidy : nextSpace.Tidy) (root : nextSpace.pml4 = space.pml4)
    (widened : Widened space.regions nextSpace.regions)
    (populates : Populates memory next roots space.pml4 touched flags)
    (covered : ∀ number, touched number → ∃ region ∈ nextSpace.regions, region.Covers number ∧
      (flags.writable = true ∨ flags.cow = true → region.prot.write = true)) :
    Evolves memory space next nextSpace roots := by
  refine ⟨populates.sound, root, tidy, ⟨?_, ?_⟩, (populates.refreshes isRoot).elsewhere, ?_⟩
  · intro number entry user present
    rw [root] at present
    rcases populates.origin isRoot user present with ⟨inside, _⟩ | old
    · rcases covered number inside with ⟨region, member, covers, _⟩
      exact ⟨region, member, covers⟩
    · rcases backed.covered user old with ⟨region, member, covers⟩
      rcases widened region member with ⟨larger, isLarger, wider, _⟩
      exact ⟨larger, isLarger, wider number covers⟩
  · intro number entry user present allows
    rw [root] at present
    rcases populates.origin isRoot user present with ⟨inside, rfl, _⟩ | old
    · rcases covered number inside with ⟨region, member, covers, writable⟩
      exact ⟨region, member, covers, writable allows⟩
    · rcases backed.writable user old allows with ⟨region, member, covers, writable⟩
      rcases widened region member with ⟨larger, isLarger, wider, alike⟩
      exact ⟨larger, isLarger, wider number covers, alike.prot ▸ writable⟩
  · intro number entry user present
    rcases populates.origin isRoot user present with ⟨_, _, sole⟩ | old
    · exact .inr sole
    refine .inl ⟨old, ?_⟩
    rcases backed.covered user old with ⟨region, member, covers⟩
    rcases widened region member with ⟨larger, isLarger, wider, alike⟩
    constructor
    · -- The page was covered before, by a region of the same nature.
      intro isPrivate
      rcases isPrivate with ⟨other, isOther, otherCovers, unshared⟩
      have same := tidy.separated other isOther larger isLarger number otherCovers
        (wider number covers)
      exact ⟨region, member, covers, by rw [← alike.isShared, ← same, unshared]⟩
    · intro isPrivate
      rcases isPrivate with ⟨other, isOther, otherCovers, unshared⟩
      rcases widened other isOther with ⟨otherLarger, isMember, otherWider, otherAlike⟩
      exact ⟨otherLarger, isMember, otherWider number otherCovers, otherAlike.isShared ▸ unshared⟩

theorem mmapKind_cases (mapFlags : Nat) (fileData : Option (List UInt8)) :
    mmapKind mapFlags fileData = .anonymous ∨ mmapKind mapFlags fileData = .shared := by
  rw [mmapKind]
  split
  · exact .inl rfl
  · split
    · exact .inr rfl
    · exact .inl rfl

theorem mmapKind_ne_heap (mapFlags : Nat) (fileData : Option (List UInt8)) :
    mmapKind mapFlags fileData ≠ .heap := by
  rcases mmapKind_cases mapFlags fileData with kind | kind <;> simp [kind]

/-- Whether a new mapping is shared depends on `MAP_SHARED` alone. -/
theorem mmap_isShared (start stop mapFlags : Nat) (prot : Prot) (cow : Bool)
    (fileData : Option (List UInt8)) :
    (⟨start, stop, prot, mmapKind mapFlags fileData, mapFlags, cow⟩ : VmaRegion).isShared =
      (mapFlags % 2 != 0) := by
  rcases mmapKind_cases mapFlags fileData with kind | kind <;> simp [VmaRegion.isShared, kind]

theorem mmapFull_evolves {prot : Prot} {fileData : Option (List UInt8)} {answer : Option Nat}
    (sound : memory.Sound roots) (isRoot : roots space.pml4) (tidy : space.Tidy)
    (backed : Backed memory space) (fits : space.MmapFits memory hint len mapFlags)
    (called : space.mmapFull memory hint len prot mapFlags fileData =
      some (answer, nextSpace, next)) :
    Evolves memory space next nextSpace roots := by
  have outcome : ∀ {addr targetSpace target ok},
      Evolves memory space target targetSpace roots → addr + pageCount len * 4096 ≤ userTop →
      mapFresh releasePage (fileContent fileData) space.pml4 addr (protToFlags prot) 0
        (pageCount len) target = some (ok, next) →
      (ok = true ∧ Populates target next roots targetSpace.pml4 (Touched addr (pageCount len))
        (protToFlags prot)) ∨ (ok = false ∧ Evolves memory space next targetSpace roots) := by
    intro addr targetSpace target ok evolves inside mapped
    have targetRoot : roots targetSpace.pml4 := evolves.root ▸ isRoot
    rw [← evolves.root] at mapped
    rcases mapFresh_unmaps evolves.sound targetRoot (fun index => pageNumber_user inside)
      (fun enough populates => forPages_releasePage populates.sound targetRoot fun index below =>
        pageNumber_user inside (lt_of_lt_of_le below enough)) mapped with
      populated | ⟨failed, _, _, unmaps⟩
    · exact .inl populated
    · exact .inr ⟨failed,
        evolves.trans (Unmaps.evolves targetRoot evolves.tidy evolves.backed unmaps)⟩
  cases mmapFull_effect fits.user called with
  | refused => exact .refl sound tidy backed
  | @failed addr _ _ _ place placement undone =>
    have inside := fits.user addr (by rw [place])
    rcases outcome (placement.evolves sound isRoot tidy backed inside) inside undone with
      ⟨isOk, _⟩ | ⟨_, evolves⟩
    · cases isOk
    · exact evolves
  | @mapped addr _ _ _ place placement populated =>
    have inside := fits.user addr (by rw [place])
    have alike := fits.alike addr (by rw [place])
    rw [place] at alike
    have aligned := placement.addr_aligned tidy.mmapBase
    have evolves := placement.evolves sound isRoot tidy backed inside
    rcases outcome evolves inside populated with ⟨_, populates⟩ | ⟨failed, _⟩
    · have touched := fun number => @touched_iff addr _ inside aligned number
      apply evolves.trans
      refine Populates.evolves (evolves.root ▸ isRoot) evolves.backed ?_ rfl ?_ populates ?_
      · apply evolves.tidy.push
        · exact ⟨aligned, by simp only [mmapRegion]; omega, le_self_add, inside⟩
        · rfl
        · exact mmapKind_ne_heap mapFlags fileData
        · intro other member number otherCovers newCovers
          rw [mmapRegion, mmap_isShared]
          apply alike other member
          rcases otherCovers with ⟨otherStart, otherStop⟩
          rcases newCovers with ⟨newStart, newStop⟩
          simp only [mmapRegion] at newStart newStop
          simp only [VmaRegion.meets, Bool.and_eq_true, decide_eq_true_eq]
          omega
      · intro region member
        exact ⟨region, mem_append_left _ member, fun _ => id, .refl region⟩
      · intro number touches
        refine ⟨_, mem_append_right _ (mem_singleton.mpr rfl), (touched number).mp touches, ?_⟩
        simp [protToFlags, mmapRegion]
    · cases failed

/-! ## `brk` -/

/-- The new break lies in the user half, and no shared region lies below it in
the range of the heap. -/
structure BrkFits (space : AddressSpace) (newBrk : Nat) : Prop where
  user : newBrk ≤ userTop
  unshared : ∀ region ∈ space.regions, region.isShared = true →
    region.meets space.brkStart (alignUp newBrk) = false

/-- The regions with one heap region enlarged up to `newEnd`, or a new one. -/
structure HeapGrown (space : AddressSpace) (regions : List VmaRegion) (newEnd : Nat) : Prop where
  origin : ∀ region ∈ regions, region ∈ space.regions ∨
    (region.Placed ∧ region.start < region.stop ∧ region.stop = newEnd ∧
      space.brkStart ≤ region.start ∧ region.isShared = false ∧ region.prot.write = true)
  kept : ∀ region ∈ space.regions, ∃ larger ∈ regions,
    (∀ number, region.Covers number → larger.Covers number) ∧ larger.Alike region

theorem HeapGrown.tidy (tidy : space.Tidy) (fits : space.BrkFits newBrk)
    (ordered : space.brkStart ≤ newBrk)
    (heapBelow : ∀ region ∈ space.regions, region.kind = .heap → region.stop ≤ alignUp newBrk)
    (grown : HeapGrown space regions (alignUp newBrk)) :
    Tidy { space with regions := regions, brk := newBrk } := by
  -- A page under the enlarged region belongs to no shared region.
  have apart : ∀ {shared : VmaRegion} {heap : VmaRegion} {number : Nat},
      shared ∈ space.regions → shared.Covers number → heap.Covers number →
      heap.stop = alignUp newBrk → space.brkStart ≤ heap.start → shared.isShared = false := by
    intro shared heap number member covers heapCovers stop start
    cases isShared : shared.isShared with
    | false => rfl
    | true =>
      have range := fits.unshared shared member isShared
      rcases heapCovers with ⟨heapStart, heapStop⟩
      exact absurd covers (not_covers_of_meets range (by omega) (by omega))
  refine ⟨?_, ?_, ?_, ?_, tidy.brkStart, ordered, fits.user, tidy.mmapBase⟩
  · intro region member
    rcases grown.origin region member with old | ⟨placed, _⟩
    · exact tidy.placed region old
    · exact placed
  · intro left leftMember right rightMember number leftCovers rightCovers
    rcases grown.origin left leftMember with
      leftOld | ⟨_, _, leftStop, leftStart, leftPrivate, _⟩
    · rcases grown.origin right rightMember with
        rightOld | ⟨_, _, rightStop, rightStart, rightPrivate, _⟩
      · exact tidy.separated left leftOld right rightOld number leftCovers rightCovers
      · rw [apart leftOld leftCovers rightCovers rightStop rightStart, rightPrivate]
    · rcases grown.origin right rightMember with
        rightOld | ⟨_, _, _, _, rightPrivate, _⟩
      · rw [apart rightOld rightCovers leftCovers leftStop leftStart, leftPrivate]
      · rw [leftPrivate, rightPrivate]
  · intro region member isCow
    rcases grown.origin region member with old | ⟨_, _, _, _, _, writable⟩
    · exact tidy.cowWritable region old isCow
    · exact writable
  · intro region member isHeap
    rcases grown.origin region member with
      old | ⟨_, nonempty, stop, start, isPrivate, writable⟩
    · rcases tidy.heap region old isHeap with ⟨isPrivate, writable, nonempty, start, _⟩
      exact ⟨isPrivate, writable, nonempty, start, heapBelow region old isHeap⟩
    · exact ⟨isPrivate, writable, nonempty, start, le_of_eq stop⟩

theorem HeapGrown.evolves (isRoot : roots space.pml4) (tidy : space.Tidy)
    (backed : Backed memory space) (fits : space.BrkFits newBrk)
    (ordered : space.brkStart ≤ newBrk)
    (heapBelow : ∀ region ∈ space.regions, region.kind = .heap → region.stop ≤ alignUp newBrk)
    (grown : HeapGrown space regions (alignUp newBrk))
    (populates : Populates memory next roots space.pml4 touched flags)
    (covered : ∀ number, touched number →
      ∃ region ∈ regions, region.Covers number ∧ region.prot.write = true) :
    Evolves memory space next { space with regions := regions, brk := newBrk } roots := by
  apply Populates.evolves isRoot backed (grown.tidy tidy fits ordered heapBelow) rfl grown.kept
    populates
  intro number inside
  rcases covered number inside with ⟨region, member, covers, writable⟩
  exact ⟨region, member, covers, fun _ => writable⟩

theorem isHeap_iff : isHeap region = true ↔ region.kind = .heap := by
  rw [isHeap, beq_iff_eq]

section

variable (tidy : space.Tidy)

include tidy

variable {newEnd : Nat}

section

variable (aligned : newEnd % 4096 = 0)
include aligned

theorem HeapGrown.update (below : newEnd ≤ userTop)
    (heapBelow : ∀ region ∈ space.regions, region.kind = .heap → region.stop ≤ newEnd) :
    HeapGrown space (updateFirst isHeap (fun region => { region with stop := newEnd })
      space.regions) newEnd where
  origin := by
    intro region member
    rcases mem_updateFirst member with old | ⟨old, isOld, matched, same⟩
    · exact .inl old
    have kind := isHeap_iff.mp matched
    have placed := tidy.placed old isOld
    rcases tidy.heap old isOld kind with ⟨isPrivate, writable, nonempty, start, _⟩
    have stop := heapBelow old isOld kind
    have wider : old.start < newEnd := lt_of_lt_of_le nonempty stop
    subst same
    exact .inr ⟨⟨placed.start, aligned, le_of_lt wider, below⟩, wider, rfl, start,
      isPrivate, writable⟩
  kept := by
    intro region member
    rcases @kept_updateFirst _ isHeap (fun region => { region with stop := newEnd }) _ _ member
      with same | ⟨matched, changed⟩
    · exact ⟨region, same, fun _ covers => covers, rfl, rfl, rfl, rfl⟩
    refine ⟨_, changed, ?_, rfl, rfl, rfl, rfl⟩
    intro number covers
    have stop := heapBelow region member (isHeap_iff.mp matched)
    exact ⟨covers.1, lt_of_lt_of_le covers.2 stop⟩

theorem HeapGrown.push (below : newEnd ≤ userTop) (nonempty : space.brkStart < newEnd) :
    HeapGrown space (space.regions ++
      [⟨space.brkStart, newEnd, ⟨true, true, false⟩, .heap, mapPrivate, false⟩]) newEnd where
  origin := by
    intro region member
    rcases mem_append.mp member with old | new
    · exact .inl old
    rw [mem_singleton] at new
    subst new
    exact .inr ⟨⟨tidy.brkStart, aligned, le_of_lt nonempty, below⟩, nonempty, rfl,
      le_rfl, by simp [VmaRegion.isShared, mapPrivate], rfl⟩
  kept := fun region member =>
    ⟨region, mem_append_left _ member, fun _ covers => covers, rfl, rfl, rfl, rfl⟩

theorem heapBelow_cut :
    ∀ part ∈ space.regions.flatMap (cutRegion newEnd (alignUp space.brk)),
      part.kind = .heap → part.stop ≤ newEnd := by
  intro part member isHeap
  rcases mem_flatMap.mp member with ⟨region, isRegion, isPart⟩
  have alike := alike_of_mem_cutRegion isPart
  have lastAligned := alignUp_aligned tidy.brkBelow
  rcases bounds_of_mem_cutRegion isPart aligned lastAligned (tidy.placed _ isRegion) with
    ⟨placed, _, stop⟩
  rcases tidy.heap region isRegion (alike.kind ▸ isHeap) with ⟨_, _, nonempty, _, below⟩
  have partNonempty := nonempty_of_mem_cutRegion isPart nonempty
  have partStart := placed.start
  have partStop := placed.stop
  -- The last page of the part lies outside the range that was cut out.
  have lastCovered : part.Covers ((part.stop - 4096) / 4096) := by
    constructor <;> omega
  have outside := (covers_of_mem_cutRegion isPart lastCovered).2
  omega

end

theorem BrkFits.cut {last : Nat} (fits : space.BrkFits newBrk)
    (firstAligned : first % 4096 = 0) (lastAligned : last % 4096 = 0) :
    BrkFits { space with regions := space.regions.flatMap (cutRegion first last) } newBrk where
  user := fits.user
  unshared := by
    intro part member isShared
    rcases mem_flatMap.mp member with ⟨region, isRegion, isPart⟩
    rcases bounds_of_mem_cutRegion isPart firstAligned lastAligned (tidy.placed _ isRegion) with
      ⟨_, start, stop⟩
    rw [(alike_of_mem_cutRegion isPart).isShared] at isShared
    have apart := fits.unshared region isRegion isShared
    simp only [VmaRegion.meets, Bool.and_eq_false_iff, decide_eq_false_iff_not] at apart ⊢
    omega

theorem BrkFits.cutPages (fits : space.BrkFits newBrk) (memory : MemoryState allocator)
    (range : alignUp newBrk + count * 4096 = alignUp space.brk) :
    BrkFits (space.cutPages memory (alignUp newBrk) count).1 newBrk ∧
      ∀ region ∈ (space.cutPages memory (alignUp newBrk) count).1.regions,
        region.kind = .heap → region.stop ≤ alignUp newBrk := by
  have newAligned := alignUp_aligned fits.user
  rw [AddressSpace.cutPages]
  split
  next none =>
    refine ⟨fits, ?_⟩
    intro region member isHeap
    have stop := (tidy.heap region member isHeap).2.2.2.2
    omega
  next =>
    rw [range]
    exact ⟨fits.cut tidy newAligned (alignUp_aligned tidy.brkBelow), heapBelow_cut tidy newAligned⟩

theorem Tidy.heapBelow (larger : space.brk < newBrk) (user : newBrk ≤ userTop) :
    ∀ region ∈ space.regions, region.kind = .heap → region.stop ≤ alignUp newBrk := by
  intro region member isHeap
  have stop := (tidy.heap region member isHeap).2.2.2.2
  exact le_trans stop (alignUp_mono (le_of_lt larger) user)

theorem withHeap_grown (user : newBrk ≤ userTop) (larger : space.brk < newBrk) :
    HeapGrown space (space.withHeap (alignUp newBrk)) (alignUp newBrk) ∧
      ∀ number, alignUp space.brk ≤ number * 4096 → number * 4096 < alignUp newBrk →
        ∃ region ∈ space.withHeap (alignUp newBrk),
          region.Covers number ∧ region.prot.write = true := by
  have newAligned := alignUp_aligned user
  have newBelow := alignUp_le user
  have ordered := tidy.brkOrdered
  have oldEnd := alignUp_eq tidy.brkBelow
  have newEnd := alignUp_eq user
  rw [withHeap]
  split
  next found =>
    refine ⟨HeapGrown.update tidy newAligned newBelow (tidy.heapBelow larger user), ?_⟩
    intro number lower upper
    rcases @exists_updateFirst _ _ (fun region => { region with stop := alignUp newBrk }) _ found
      with ⟨old, isOld, matched, changed⟩
    rcases tidy.heap old isOld (isHeap_iff.mp matched) with ⟨_, writable, nonempty, _, stop⟩
    exact ⟨_, changed, ⟨by simp only; omega, upper⟩, writable⟩
  next =>
    refine ⟨HeapGrown.push tidy newAligned newBelow (by omega), ?_⟩
    intro number lower upper
    exact ⟨_, mem_append_right _ (mem_singleton.mpr rfl),
      ⟨by simp only [heapRegion]; omega, upper⟩, rfl⟩

theorem Tidy.heapBounds : space.HeapBounds :=
  ⟨tidy.brkStart, tidy.brkOrdered, tidy.brkBelow⟩

end

theorem setBrk_evolves {answer : Nat} (sound : memory.Sound roots) (isRoot : roots space.pml4)
    (tidy : space.Tidy) (backed : Backed memory space) (fits : space.BrkFits newBrk)
    (called : space.setBrk memory newBrk = some (answer, nextSpace, next)) :
    Evolves memory space next nextSpace roots := by
  have newAligned := alignUp_aligned fits.user
  have newBelow := alignUp_le fits.user
  have ordered := tidy.brkOrdered
  cases setBrk_effect tidy.heapBounds fits.user called with
  | idle => exact .refl sound tidy backed
  | @shrunk count lower _ range =>
    have evolves := @cutPages_evolves _ _ _ _ _ sound isRoot tidy backed count newAligned
      (by rw [range]; exact alignUp_le tidy.brkBelow)
    rcases fits.cutPages tidy memory range with ⟨cutFits, heapBelow⟩
    have sameStart : (space.cutPages memory (alignUp newBrk) count).1.brkStart =
        space.brkStart := by rw [cutPages_space]
    apply evolves.trans
    apply HeapGrown.evolves (evolves.root ▸ isRoot) evolves.tidy evolves.backed cutFits
      (sameStart ▸ lower) heapBelow (HeapGrown.update evolves.tidy newAligned newBelow heapBelow)
      (@Populates.refl _ _ _ _ ⟨true, true, false, true⟩ 0 evolves.sound)
    exact fun _ touched => absurd touched not_touched_zero
  | @failed count _ _ range undone =>
    have inside := range.trans_le newBelow
    rcases mapRange_spec sound isRoot (fun index => pageNumber_user inside) undone with
      ⟨isOk, _⟩ | ⟨_, _, _, unmaps⟩
    · cases isOk
    · exact Unmaps.evolves isRoot tidy backed unmaps
  | @grown count _ larger range populated =>
    have inside := range.trans_le newBelow
    rcases mapRange_spec sound isRoot (fun index => pageNumber_user inside) populated with
      ⟨_, populates⟩ | ⟨failed, _⟩
    · rcases withHeap_grown tidy fits.user larger with ⟨grown, covered⟩
      apply HeapGrown.evolves isRoot tidy backed fits (by omega) (tidy.heapBelow larger fits.user)
        grown populates
      intro number touched
      have bounds := (touched_iff inside (alignUp_aligned tidy.brkBelow)).mp touched
      rw [range] at bounds
      exact covered number bounds.1 bounds.2
    · cases failed

end Qunix.Memory.Vmm.AddressSpace
