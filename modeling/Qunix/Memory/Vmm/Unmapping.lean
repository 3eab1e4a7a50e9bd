import Qunix.Arch.PageSlots
import Qunix.Memory.Vmm.WriteProtection

/-! # What `munmap` takes away

The walk of the page tables uses 48 bits of an address, and `munmap` compares regions by
all 64. The two agree on canonical addresses, and nothing makes sure that the
addresses of the call are canonical.
-/

namespace Qunix.Memory.Vmm

open Foundation Arch MemoryState VmaRegion Bool List Option

/-- The addresses that the processor accepts. -/
def Canonical (addr : Nat) : Prop := addr < 2 ^ 47 ∨ (2 ^ 64 - 2 ^ 47 ≤ addr ∧ addr < 2 ^ 64)

instance (addr : Nat) : Decidable (Canonical addr) := inferInstanceAs (Decidable (_ ∨ _))

theorem Canonical.same_page {left right : Nat} (isLeft : Canonical left)
    (isRight : Canonical right) (same : pageNumber left = pageNumber right) :
    left / 4096 = right / 4096 := by
  simp only [Canonical] at isLeft isRight
  simp only [pageNumber, pageSize_eq] at same
  omega

/-! ## Levels of tables -/

section Levels

variable {allocator : FrameAllocator} {memory : MemoryState allocator} {root : Nat}

/-- In the kernel half, which the calls leave as they find it, no table of the last level is used
higher up, and no table of the user half. -/
def KernelLayered (memory : MemoryState allocator) (root : Nat) : Prop :=
  ∀ {depth path above leaf}, depth < 3 →
    pathWidth 3 ≤ path % 512 ^ 3 ∨ pathWidth depth ≤ above % 512 ^ depth →
    memory.tables.tableAt PageTableEntry.frame 512 root 3 path = some leaf →
    memory.tables.tableAt PageTableEntry.frame 512 root depth above ≠ some leaf

theorem layered_of_layout {roots : Nat → Prop} (layout : memory.Layout roots)
    (isRoot : roots root) (kernel : KernelLayered memory root) : memory.Layered root := by
  intro depth path above leaf below isLeaf isAbove
  by_cases inKernel : pathWidth 3 ≤ path % 512 ^ 3 ∨ pathWidth depth ≤ above % 512 ^ depth
  · exact kernel below inKernel isLeaf isAbove
  · rw [← Tables.tableAt_mod] at isLeaf isAbove
    have same := layout.forest.distinct isRoot isRoot le_rfl (le_of_lt below) (by omega)
      (by omega) isLeaf isAbove
    omega

/-- The address spaces of every run of confined calls have their tables in levels. -/
theorem layered_of_confined {machine : Machine allocator} {pid : Nat} {space : AddressSpace}
    (reachable : Machine.confinedSystem.Reachable machine)
    (isSpace : machine.spaces pid = some space)
    (kernel : KernelLayered machine.memory space.pml4) :
    machine.memory.Layered space.pml4 :=
  layered_of_layout (Machine.confined_safe reachable).layout ⟨pid, space, isSpace, rfl⟩ kernel

end Levels

namespace AddressSpace

variable {allocator : FrameAllocator} {memory : MemoryState allocator} {space : AddressSpace}
variable {root addr len : Nat}

/-! ## The pages -/

theorem releasePage_rewrites {virt : Nat} (layered : memory.Layered root) :
    Rewrites memory (releasePage memory root virt) root
      (fun number => memory.slot root number = memory.slot root (pageNumber virt))
      (fun _ => none) := by
  rw [releasePage, translate_eq]
  cases present : memory.page root (pageNumber virt) with
  | none => exact rewrites_absent layered present rfl
  | some entry =>
    apply (unmapPage_rewrites layered).congr
    simp only [map_some, cowDec]
    repeat' split
    all_goals rfl

theorem releasePages_rewrites {first : Nat} (layered : memory.Layered root) (count : Nat) :
    Rewrites memory (forPages releasePage memory root first count) root
      (memory.Visited root (fun index => pageNumber (pageAddress first index)) count)
      (fun _ => none) := by
  induction count with
  | zero => exact .none layered
  | succ count induction =>
    rw [forPages]
    exact induction.snoc (fun _ => rfl) (releasePage_rewrites induction.layered)

/-! ## The regions -/

section Regions

variable {first last virt : Nat} {region : VmaRegion}

theorem cutRegion_keeps (outside : virt < first ∨ last ≤ virt)
    (contains : region.contains virt = true) :
    ∃ part ∈ cutRegion first last region, part.contains virt = true := by
  simp only [VmaRegion.contains, and_eq_true, decide_eq_true_eq] at contains ⊢
  by_cases apart : region.stop ≤ first ∨ last ≤ region.start
  · exact ⟨region, mem_cutRegion.mpr (.inl ⟨rfl, apart⟩), contains⟩
  · rcases outside with before | behind
    · exact ⟨_, mem_cutRegion.mpr (.inr ⟨apart, .inl ⟨by omega, rfl⟩⟩), contains.1, before⟩
    · exact ⟨_, mem_cutRegion.mpr (.inr ⟨apart, .inr ⟨by omega, rfl⟩⟩), behind, contains.2⟩

theorem find_cut (outside : virt < first ∨ last ≤ virt) (regions : List VmaRegion) :
    Option.Rel Alike ((regions.flatMap (cutRegion first last)).find? (·.contains virt))
      (regions.find? (·.contains virt)) := by
  induction regions with
  | nil => exact .none
  | cons region rest induction =>
    rw [flatMap_cons, find?_append, find?_cons]
    cases contains : region.contains virt with
    | true =>
      rcases cutRegion_keeps outside contains with ⟨part, member, isIn⟩
      have isFound : ((cutRegion first last region).find? (·.contains virt)).isSome = true :=
        List.find?_isSome.mpr ⟨part, member, isIn⟩
      rcases isSome_iff_exists.mp isFound with ⟨chosen, isChosen⟩
      rw [isChosen, some_or]
      exact .some (alike_of_mem_cutRegion (mem_of_find?_eq_some isChosen))
    | false =>
      have absent : (cutRegion first last region).find? (·.contains virt) = none := by
        rw [find?_eq_none]
        intro part member isIn
        have narrow := narrow_of_mem_cutRegion member
        simp only [VmaRegion.contains, and_eq_true, and_eq_false_iff,
          decide_eq_true_eq, decide_eq_false_iff_not] at contains isIn
        omega
      rw [absent, none_or]
      exact induction

theorem find_cut_inside (inside : first ≤ virt ∧ virt < last) (regions : List VmaRegion) :
    (regions.flatMap (cutRegion first last)).find? (·.contains virt) = none := by
  rw [find?_eq_none]
  intro part member isIn
  rcases mem_flatMap.mp member with ⟨region, _, isPart⟩
  have apart := meets_eq_false.mp (meets_of_mem_cutRegion isPart)
  simp only [VmaRegion.contains, and_eq_true, decide_eq_true_eq] at isIn
  omega

end Regions

/-! ## The call -/

/-- The addresses of the pages that the call names. -/
def UnmapRange (addr len virt : Nat) : Prop :=
  alignDown addr ≤ virt ∧ virt < (addr + len + 4095) / 4096 * 4096

instance (addr len virt : Nat) : Decidable (UnmapRange addr len virt) :=
  inferInstanceAs (Decidable (_ ∧ _))

/-- The pages of the range are gone from the page tables and from the regions, and every
other address is mapped and recorded as before. -/
structure UnmapsExactly (space : AddressSpace) (memory : MemoryState allocator) (addr len : Nat)
    (result : AddressSpace × MemoryState allocator) : Prop where
  inside : ∀ virt, Canonical virt → UnmapRange addr len virt →
    result.2.page space.pml4 (pageNumber virt) = none ∧ result.1.findRegion virt = none
  outside : ∀ virt, Canonical virt → ¬UnmapRange addr len virt →
    result.2.page space.pml4 (pageNumber virt) = memory.page space.pml4 (pageNumber virt) ∧
    Option.Rel Alike (result.1.findRegion virt) (space.findRegion virt)

/-- No mapped address outside the range has its entry where an address of the range has
its own. -/
def RangeAlone (space : AddressSpace) (memory : MemoryState allocator) (addr len : Nat) : Prop :=
  ∀ virt, Canonical virt → ¬UnmapRange addr len virt → memory.translate space.pml4 virt ≠ none →
    ∀ other, UnmapRange addr len other →
      memory.getEntry space.pml4 virt ≠ memory.getEntry space.pml4 other

section Call

variable (positive : 0 < len) (fits : addr + len + 4095 < 2 ^ 64)

include positive fits

theorem visited_iff (number : Nat) :
    memory.Visited space.pml4 (fun index => pageNumber (pageAddress (alignDown addr) index))
      (unmapCount addr len) number ↔
      ∃ other, UnmapRange addr len other ∧
        memory.slot space.pml4 number = memory.getEntry space.pml4 other := by
  have range := @unmapCount_range len addr positive
  have address : ∀ index, index < unmapCount addr len →
      pageAddress (alignDown addr) index = alignDown addr + index * 4096 := by
    intro index below
    rw [pageAddress, pageSize_eq, Word.mul_eq, Word.add_eq]
    all_goals rw [modulus_eq]; omega
  constructor
  · rintro ⟨index, below, same⟩
    refine ⟨alignDown addr + index * 4096, ⟨by omega, by omega⟩, ?_⟩
    rw [getEntry_slot, same]
    dsimp only
    rw [address index below]
  · rintro ⟨other, ⟨lower, upper⟩, same⟩
    have below : (other - alignDown addr) / 4096 < unmapCount addr len := by omega
    refine ⟨(other - alignDown addr) / 4096, below, ?_⟩
    rw [getEntry_slot] at same
    rw [same]
    dsimp only
    rw [address _ below]
    congr 1
    simp only [pageNumber, pageSize_eq]
    omega

end Call

/-! ## One mapped page -/

def onePageTables : Tables PageTableEntry
  | 1, 0 => some ⟨2, ⟨true, true, false, false⟩⟩
  | 2, 4 => some ⟨3, ⟨true, true, false, false⟩⟩
  | 3, 0 => some ⟨4, ⟨true, true, false, false⟩⟩
  | 4, 0 => some ⟨5, ⟨true, true, false, true⟩⟩
  | _, _ => none

def onePageMemory : MemoryState Phys.allocator where
  frames := Phys.emptyState
  cpu := 0
  tables := onePageTables
  bytes := fun _ _ => 0
  refcounts := fun _ => 1

def onePageSpace : AddressSpace :=
  ⟨1, [heapRegion initialBrkStart (initialBrkStart + 4096)], initialBrkStart + 4096,
    initialBrkStart, initialMmapBase⟩

theorem onePageTables_some {table slot : Nat} {entry : PageTableEntry}
    (isEntry : onePageTables table slot = some entry) :
    table ≤ 4 ∧ slot = (if table = 2 then 4 else 0) ∧ entry.frame = table + 1 := by
  revert isEntry
  fun_cases onePageTables table slot
  all_goals
    intro isEntry
    cases isEntry
  all_goals decide

theorem onePage_layered : onePageMemory.Layered 1 := by
  apply Tables.layered_of_level (fun table => 4 - table)
  · rfl
  · intro table slot entry high isEntry
    rcases onePageTables_some isEntry with ⟨_, _, leads⟩
    omega

theorem onePage_mapped {virt : Nat} (mapped : onePageMemory.translate 1 virt ≠ none) :
    pageNumber virt = pageNumber initialBrkStart := by
  rcases Option.ne_none_iff_exists'.mp mapped with ⟨frame, found⟩
  simp only [MemoryState.translate, getEntry, bind_eq_bind, bind_eq_some_iff] at found
  rcases found with ⟨_, ⟨e4, has4, e3, has3, e2, has2, place⟩, e1, has1, _⟩
  cases place
  rcases onePageTables_some has4 with ⟨_, slot3, leads3⟩
  rw [leads3] at has3
  rcases onePageTables_some has3 with ⟨_, slot2, leads2⟩
  rw [leads2] at has2
  rcases onePageTables_some has2 with ⟨_, slot1, leads1⟩
  rw [leads1] at has1
  rcases onePageTables_some has1 with ⟨_, slot0, _⟩
  rw [tableIndex_three] at slot3
  rw [tableIndex_two] at slot2
  rw [tableIndex_one] at slot1
  rw [tableIndex_zero] at slot0
  have small : pageNumber virt < 2 ^ 36 := Nat.mod_lt _ (by decide)
  have start : pageNumber initialBrkStart = 2 ^ 20 := by decide
  simp only [Nat.reduceEqDiff, Nat.reduceAdd, if_true, if_false] at slot3 slot2 slot1 slot0
  omega

end AddressSpace

end Qunix.Memory.Vmm
