import Qunix.Memory.Vmm.RegionHistory

/-! # Write faults and read-only pages

`handle_cow_fault` makes a page writable when the page or its region is marked
copy-on-write, and never asks whether the region is writable. That is right as long as
the marks are only on what is writable.
-/

namespace Qunix.Memory.Vmm.AddressSpace

open Foundation Arch MemoryState VmaRegion Bool List

variable {allocator : FrameAllocator} {memory next : MemoryState allocator}
variable {space nextSpace : AddressSpace} {roots : Nat → Prop}

/-- The records are in order, and copy-on-write marks are only on what is writable. -/
structure Governed (memory : MemoryState allocator) (space : AddressSpace) : Prop where
  arranged : space.Arranged
  marked : ∀ region ∈ space.regions, region.cow = true → region.prot.write = true
  page : ∀ {number entry}, number < userPages → memory.page space.pml4 number = some entry →
    entry.flags.cow = true →
    ∃ region ∈ space.regions, region.Covers number ∧ region.prot.write = true

theorem Arranged.found {region : VmaRegion} {addr : Nat} (arranged : space.Arranged)
    (found : space.findRegion addr = some region) :
    region ∈ space.regions ∧ region.Covers (addr / 4096) := by
  have member := mem_of_find?_eq_some found
  have contains : region.contains addr = true :=
    find?_some (p := fun region : VmaRegion => region.contains addr) found
  exact ⟨member, (contains_iff (arranged.placed region member)).mp contains⟩

theorem Arranged.findRegion {region : VmaRegion} {addr : Nat} (arranged : space.Arranged)
    (member : region ∈ space.regions) (covers : region.Covers (addr / 4096)) :
    space.findRegion addr = some region := by
  have contains := (contains_iff (arranged.placed region member)).mpr covers
  have isFound : (space.findRegion addr).isSome = true :=
    List.find?_isSome.mpr ⟨region, member, contains⟩
  rcases Option.isSome_iff_exists.mp isFound with ⟨first, isFirst⟩
  rcases arranged.found isFirst with ⟨firstMember, firstCovers⟩
  rw [isFirst, arranged.neat.unique firstMember member firstCovers covers]

namespace Governed

section

variable (governed : Governed memory space)
include governed

/-- A copy-on-write fault is a fault in a writable region. -/
theorem writable {addr : Nat} {entry : PageTableEntry}
    (user : addr < userTop) (present : memory.page space.pml4 (addr / 4096) = some entry)
    (isCow : space.CowFault entry addr) :
    ∃ region, space.findRegion addr = some region ∧ region.prot.write = true := by
  rcases isCow with pageCow | ⟨region, found, regionCow⟩
  · rcases governed.page (pageNumber_alignDown user).2 present pageCow with
      ⟨region, member, covers, write⟩
    exact ⟨region, governed.arranged.findRegion member covers, write⟩
  · exact ⟨region, found, governed.marked region (governed.arranged.found found).1 regionCow⟩

theorem footprint {range : Nat → Prop}
    (footprint : Footprint memory space next nextSpace roots range)
    (arranged : nextSpace.Arranged) : Governed next nextSpace where
  arranged := arranged
  marked := by
    intro region member cow
    rcases footprint.origin region member cow with ⟨old, isOld, alike⟩
    rw [alike.prot]
    exact governed.marked old isOld (alike.cow.symm.trans cow)
  page := by
    intro number entry user present cow
    rw [footprint.root] at present
    rcases footprint.here user with fresh | kept
    · rw [(fresh entry present).1] at cow
      cases cow
    · rcases governed.page user (kept.page.symm.trans present) cow with
        ⟨region, member, covers, write⟩
      rcases kept.region region member covers with ⟨same, isSame, sameCovers, alike⟩
      exact ⟨same, isSame, sameCovers, alike.prot ▸ write⟩

theorem samePages (same : ∀ {number}, number < userPages →
      next.page space.pml4 number = memory.page space.pml4 number) : Governed next space where
  arranged := governed.arranged
  marked := governed.marked
  page := fun user present => governed.page user ((same user).symm.trans present)

end

theorem new (memory : MemoryState allocator) {root : Nat}
    (empty : ∀ {number}, number < userPages → memory.page root number = none) :
    Governed memory ⟨root, [], initialBrkStart, initialBrkStart, initialMmapBase⟩ where
  arranged := .new root
  marked := fun _ member => absurd member not_mem_nil
  page := by
    intro number entry user present
    cases (empty user).symm.trans present

end Governed

/-! ## Fork -/

theorem Arranged.marked (arranged : space.Arranged) (root : Nat) :
    (space.marked root).Arranged where
  neat := Machine.neat_marked arranged.neat root
  user := by
    intro region member
    rcases mem_map.mp member with ⟨old, isOld, same⟩
    rw [← same, (markCow_alike old).2.2.2.1]
    exact arranged.user old isOld
  heap := arranged.heap.transfer rfl rfl
  base := arranged.base

section Fork

variable {before : MemoryState allocator} {parent child : Nat}
variable (forked : Forked before memory roots parent child
  fun region number => region ∈ space.regions ∧ region.Covers number)

section

variable (governed : Governed before space)
include governed

theorem Governed.marked_write (root : Nat) :
    ∀ region ∈ (space.marked root).regions, region.cow = true → region.prot.write = true := by
  intro part member isCow
  rcases mem_map.mp member with ⟨region, isRegion, same⟩
  rw [← same, (markCow_alike region).1]
  rw [← same, markCow] at isCow
  split at isCow
  next can =>
    rw [canCow_eq, and_eq_true] at can
    exact can.1
  next => exact governed.marked region isRegion isCow

include forked

theorem Governed.forkChild :
    Governed memory (space.marked child) where
  arranged := governed.arranged.marked child
  marked := governed.marked_write child
  page := by
    intro number entry user present isCow
    rcases forked.childPage user present with ⟨_, region, _, _, ⟨isRegion, covers⟩, flags⟩
    rw [flags] at isCow
    exact ⟨markCow region, mem_map_of_mem isRegion, markCow_covers.mpr covers,
      (markCow_alike region).1 ▸ forkFlags_writable (.inr isCow)⟩

theorem Governed.forkParent (isParent : space.pml4 = parent) :
    Governed memory (space.marked parent) where
  arranged := governed.arranged.marked parent
  marked := governed.marked_write parent
  page := by
    intro number entry user present isCow
    rcases forked.parentPage user present with ⟨old, source, _, history⟩
    have writes : ∃ region ∈ space.regions, region.Covers number ∧ region.prot.write = true := by
      rcases history with ⟨unchanged, _⟩ | ⟨region, ⟨isRegion, covers⟩, _, flags⟩
      · rw [unchanged] at isCow
        rw [← isParent] at source
        exact governed.page user source isCow
      · rw [flags] at isCow
        exact ⟨region, isRegion, covers, forkFlags_writable (.inr isCow)⟩
    rcases writes with ⟨region, isRegion, covers, write⟩
    exact ⟨markCow region, mem_map_of_mem isRegion, markCow_covers.mpr covers,
      (markCow_alike region).1 ▸ write⟩

end

end Fork

/-! ## `mprotect` -/

section Mprotect

variable {addr len number : Nat} {prot : Prot} {region : VmaRegion}

/-- A call that takes write permission away names whole regions, none of them marked
copy-on-write, and no page outside all regions. -/
structure ProtectClear (space : AddressSpace) (memory : MemoryState allocator) (addr len : Nat)
    (prot : Prot) : Prop where
  short : len ≤ userTop
  user : addr + pageCount len * 4096 ≤ userTop
  whole : prot.write = false → ∀ region ∈ space.regions,
    region.meets addr (addr + len) = true →
    addr ≤ region.start ∧ region.stop ≤ addr + len ∧ region.cow = false
  covered : prot.write = false → ∀ number, Touched addr (pageCount len) number →
    memory.page space.pml4 number ≠ none → ∃ region ∈ space.regions, region.Covers number

def protectRegion (addr stop : Nat) (prot : Prot) (region : VmaRegion) : VmaRegion :=
  if region.start ≥ addr && region.stop ≤ stop then { region with prot := prot } else region

theorem protectRegion_bounds {stop : Nat} :
    (protectRegion addr stop prot region).start = region.start ∧
      (protectRegion addr stop prot region).stop = region.stop ∧
      (protectRegion addr stop prot region).cow = region.cow := by
  rw [protectRegion]
  split <;> exact ⟨rfl, rfl, rfl⟩

theorem protectRegion_covers {stop : Nat} :
    (protectRegion addr stop prot region).Covers number ↔ region.Covers number := by
  rcases @protectRegion_bounds addr prot region stop with ⟨sameStart, sameStop, _⟩
  rw [Covers, Covers, sameStart, sameStop]

theorem pageCount_eq (short : len ≤ userTop) : pageCount len = (len + 4095) / 4096 := by
  rw [pageCount, pageSize_eq, Word.add_eq]
  rw [userTop_eq] at short
  rw [modulus_eq]
  omega

theorem touched_number (user : addr + pageCount len * 4096 ≤ userTop) :
    Touched addr (pageCount len) number ↔
      addr / 4096 ≤ number ∧ number < addr / 4096 + pageCount len := by
  constructor
  · rintro ⟨index, below, same⟩
    rw [pageNumber_eq user below] at same
    omega
  · rintro ⟨lower, upper⟩
    refine ⟨number - addr / 4096, by omega, ?_⟩
    rw [pageNumber_eq user (by omega)]
    omega

theorem meets_of_touched (short : len ≤ userTop) (user : addr + pageCount len * 4096 ≤ userTop)
    (aligned : region.stop % 4096 = 0) (touched : Touched addr (pageCount len) number)
    (covers : region.Covers number) : region.meets addr (addr + len) = true := by
  rw [touched_number user, pageCount_eq short] at touched
  rcases covers with ⟨after, before⟩
  rw [meets, and_eq_true, decide_eq_true_eq, decide_eq_true_eq]
  omega

def protectedSpace (space : AddressSpace) (addr stop : Nat) (prot : Prot) : AddressSpace :=
  { space with regions := space.regions.map (protectRegion addr stop prot) }

theorem mprotect_effect (layout : memory.Layout roots) (isRoot : roots space.pml4)
    (clear : space.ProtectClear memory addr len prot)
    (called : space.mprotect memory addr len prot = some (nextSpace, next)) :
    nextSpace = space.protectedSpace addr (addr + len) prot ∧
      Reflags memory next roots space.pml4 (Touched addr (pageCount len)) (protToFlags prot) := by
  have user := fun index below => @pageNumber_user addr (pageCount len) clear.user index below
  refine ⟨?_, (mprotect_spec layout isRoot user called).2⟩
  have stop : Word.add addr len = addr + len := by
    apply Word.add_eq
    have inside := clear.user
    have short := clear.short
    rw [userTop_eq] at inside short
    rw [modulus_eq]
    omega
  rw [mprotect, stop] at called
  rcases Option.bind_eq_some_iff.mp called with ⟨_, _, finished⟩
  cases finished
  rfl

theorem Arranged.protectedSpace (arranged : space.Arranged) (addr stop : Nat) (prot : Prot) :
    (space.protectedSpace addr stop prot).Arranged where
  neat := arranged.neat.map (fun _ => protectRegion_bounds.1) fun _ => protectRegion_bounds.2.1
  user := by
    intro region member
    rcases mem_map.mp member with ⟨old, isOld, same⟩
    rw [← same, protectRegion_bounds.2.1]
    exact arranged.user old isOld
  heap := arranged.heap.transfer rfl rfl
  base := arranged.base

theorem protectRegion_untouched (arranged : space.Arranged)
    (clear : space.ProtectClear memory addr len prot) (member : region ∈ space.regions)
    (covers : region.Covers number) (untouched : ¬Touched addr (pageCount len) number) :
    protectRegion addr (addr + len) prot region = region := by
  rw [protectRegion, if_neg]
  intro inside
  rw [and_eq_true, decide_eq_true_eq, decide_eq_true_eq] at inside
  have aligned := (arranged.neat.aligned region member).2
  rcases covers with ⟨after, before⟩
  apply untouched
  rw [touched_number clear.user, pageCount_eq clear.short]
  omega

theorem Governed.mprotect (governed : Governed memory space) (isRoot : roots space.pml4)
    (clear : space.ProtectClear memory addr len prot)
    (reflags : Reflags memory next roots space.pml4 (Touched addr (pageCount len))
      (protToFlags prot)) :
    Governed next (space.protectedSpace addr (addr + len) prot) where
  arranged := governed.arranged.protectedSpace addr (addr + len) prot
  marked := by
    intro part member isCow
    rcases mem_map.mp member with ⟨region, isRegion, same⟩
    rw [← same] at isCow ⊢
    rw [protectRegion_bounds.2.2] at isCow
    rw [protectRegion]
    split
    next inside =>
      rw [and_eq_true, decide_eq_true_eq, decide_eq_true_eq] at inside
      have nonempty := governed.arranged.neat.nonempty region isRegion
      have meets : region.meets addr (addr + len) = true := by
        rw [VmaRegion.meets, and_eq_true, decide_eq_true_eq, decide_eq_true_eq]
        omega
      cases write : prot.write with
      | true => rfl
      | false =>
        rw [(clear.whole write region isRegion meets).2.2] at isCow
        cases isCow
    next => exact governed.marked region isRegion isCow
  page := by
    intro number entry user present isCow
    by_cases touched : Touched addr (pageCount len) number
    · rw [AddressSpace.protectedSpace, reflags.inside user touched] at present
      rcases Option.map_eq_some_iff.mp present with ⟨old, _, same⟩
      rw [← same] at isCow
      cases isCow
    · rw [AddressSpace.protectedSpace, reflags.outside isRoot user fun both => touched both.2]
        at present
      rcases governed.page user present isCow with ⟨region, member, covers, write⟩
      have same := protectRegion_untouched governed.arranged clear member covers touched
      refine ⟨region, ?_, covers, write⟩
      rw [← same]
      exact mem_map_of_mem member

end Mprotect

/-! ## Pages that stay read-only -/

/-- The page lies in a region without write permission and is not writable. -/
structure Sealed (memory : MemoryState allocator) (space : AddressSpace) (number : Nat) :
    Prop where
  region : ∃ region ∈ space.regions, region.Covers number ∧ region.prot.write = false
  page : ∀ entry, memory.page space.pml4 number = some entry → entry.flags.writable = false

namespace Sealed

variable {number : Nat}

theorem refuses {addr : Nat} (isSealed : Sealed memory space (addr / 4096))
    (governed : Governed memory space) (user : addr < userTop) :
    space.handleCowFault memory addr = some (false, memory) := by
  rcases isSealed.region with ⟨region, member, covers, readOnly⟩
  have found := governed.arranged.findRegion member covers
  apply handleCowFault_ignored user
  intro entry present isCow
  rcases governed.writable user present isCow with ⟨other, isOther, write⟩
  rw [found, Option.some.injEq] at isOther
  rw [← isOther, readOnly] at write
  cases write

theorem kept (isSealed : Sealed memory space number) (root : nextSpace.pml4 = space.pml4)
    (kept : Kept memory space next nextSpace number) : Sealed next nextSpace number where
  region := by
    rcases isSealed.region with ⟨region, member, covers, readOnly⟩
    rcases kept.region region member covers with ⟨same, isSame, sameCovers, alike⟩
    exact ⟨same, isSame, sameCovers, alike.prot ▸ readOnly⟩
  page := by
    rw [root, kept.page]
    exact isSealed.page

theorem samePage (isSealed : Sealed memory space number)
    (same : next.page space.pml4 number = memory.page space.pml4 number) :
    Sealed next space number :=
  isSealed.kept rfl ⟨same, (Kept.refl memory space number).region⟩

section Fork

variable {before : MemoryState allocator} {parent child : Nat}
variable (forked : Forked before memory roots parent child
  fun region number => region ∈ space.regions ∧ region.Covers number)
variable (user : number < userPages)

section

variable (isSealed : Sealed before space number)
include isSealed

theorem region_marked (root : Nat) :
    ∃ region ∈ (space.marked root).regions, region.Covers number ∧ region.prot.write = false := by
  rcases isSealed.region with ⟨region, member, covers, readOnly⟩
  exact ⟨markCow region, mem_map_of_mem member, markCow_covers.mpr covers,
    (markCow_alike region).1 ▸ readOnly⟩

include forked user

theorem forkParent (isParent : space.pml4 = parent) :
    Sealed memory (space.marked parent) number where
  region := isSealed.region_marked parent
  page := by
    intro entry present
    rcases forked.parentPage user present with ⟨old, source, _, history⟩
    rcases history with ⟨unchanged, _⟩ | ⟨region, _, can, flags⟩
    · rw [unchanged]
      rw [← isParent] at source
      exact isSealed.page old source
    · rw [flags, forkFlags, if_pos can]
      rfl

theorem forkChild (arranged : space.Arranged) :
    Sealed memory (space.marked child) number where
  region := isSealed.region_marked child
  page := by
    intro entry present
    rcases forked.childPage user present with ⟨_, region, _, _, ⟨member, covers⟩, flags⟩
    rcases isSealed.region with ⟨only, isOnly, onlyCovers, readOnly⟩
    rw [arranged.neat.unique isOnly member onlyCovers covers] at readOnly
    rw [flags, forkFlags]
    split
    next => rfl
    next => exact readOnly

end

end Fork

section Mprotect

variable {addr len : Nat} {prot : Prot} (isRoot : roots space.pml4)
variable (clear : space.ProtectClear memory addr len prot)
variable (reflags : Reflags memory next roots space.pml4 (Touched addr (pageCount len))
  (protToFlags prot))
variable (user : number < userPages)

include clear reflags user

theorem protect (arranged : space.Arranged) (readOnly : prot.write = false)
    (touched : Touched addr (pageCount len) number)
    (present : memory.page space.pml4 number ≠ none) :
    Sealed next (space.protectedSpace addr (addr + len) prot) number where
  region := by
    rcases clear.covered readOnly number touched present with ⟨region, member, covers⟩
    have meets := meets_of_touched clear.short clear.user
      (arranged.neat.aligned region member).2 touched covers
    rcases clear.whole readOnly region member meets with ⟨lower, upper, _⟩
    refine ⟨protectRegion addr (addr + len) prot region, mem_map_of_mem member,
      protectRegion_covers.mpr covers, ?_⟩
    rw [protectRegion, if_pos]
    · exact readOnly
    · rw [and_eq_true, decide_eq_true_eq, decide_eq_true_eq]
      exact ⟨lower, upper⟩
  page := by
    intro entry now
    rw [protectedSpace, reflags.inside user touched] at now
    rcases Option.map_eq_some_iff.mp now with ⟨old, _, same⟩
    rw [← same]
    exact readOnly

include isRoot

theorem mprotect (isSealed : Sealed memory space number) (arranged : space.Arranged)
    (spared : prot.write = false ∨ ¬Touched addr (pageCount len) number) :
    Sealed next (space.protectedSpace addr (addr + len) prot) number where
  region := by
    rcases isSealed.region with ⟨region, member, covers, readOnly⟩
    refine ⟨protectRegion addr (addr + len) prot region, mem_map_of_mem member,
      protectRegion_covers.mpr covers, ?_⟩
    rcases spared with noWrite | untouched
    · rw [protectRegion]
      split
      next => exact noWrite
      next => exact readOnly
    · rw [protectRegion_untouched arranged clear member covers untouched]
      exact readOnly
  page := by
    intro entry now
    by_cases touched : Touched addr (pageCount len) number
    · rw [protectedSpace, reflags.inside user touched] at now
      rcases Option.map_eq_some_iff.mp now with ⟨old, _, same⟩
      rcases spared with noWrite | untouched
      · rw [← same]
        exact noWrite
      · exact absurd touched untouched
    · rw [protectedSpace, reflags.outside isRoot user fun both => touched both.2] at now
      exact isSealed.page entry now

end Mprotect

end Sealed

end Qunix.Memory.Vmm.AddressSpace
