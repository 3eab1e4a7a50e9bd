import Qunix.Memory.Vmm.Unmapping

/-! # What `mprotect` changes

The call changes the entries of the pages it visits, and the permissions of the regions
that lie inside the range. Nothing relates the two: a region that the range covers only
in part keeps its permissions, and its pages in the range lose theirs.
-/

namespace Qunix.Memory.Vmm.AddressSpace

open Foundation Arch MemoryState VmaRegion Option Word

variable {allocator : FrameAllocator} {memory : MemoryState allocator} {space : AddressSpace}
variable {root addr len : Nat} {prot : Prot}

/-- The entries in the slots of the visited pages get the flags, and no page needs a new
table. -/
theorem protectPages_rewrites {flags : PageFlags} (layered : memory.Layered root) (count : Nat) :
    ∃ next, protectPages flags memory root addr count = some next ∧
      Rewrites memory next root
        (memory.Visited root (fun index => pageNumber (pageAddress addr index)) count)
        (reflag flags) := by
  induction count with
  | zero => exact ⟨memory, rfl, .none layered⟩
  | succ count induction =>
    rcases induction with ⟨reached, before, earlier⟩
    rw [protectPages, before, bind_eq_bind, bind_some, translate_eq]
    cases present : reached.page root (pageNumber (pageAddress addr count)) with
    | none =>
      have step := rewrites_absent earlier.layered present (rfl : reflag flags none = none)
      exact ⟨reached, rfl, earlier.snoc (reflag_reflag flags) step⟩
    | some entry =>
      rcases mapPage_rewrites flags earlier.layered present with ⟨next, mapped, step⟩
      exact ⟨next, mapped, earlier.snoc (reflag_reflag flags) step⟩

def inRange (addr stop : Nat) (region : VmaRegion) : Bool :=
  region.start ≥ addr && region.stop ≤ stop

variable {stop : Nat} {next : MemoryState allocator}

theorem protectRegion_prot (region : VmaRegion) :
    (protectRegion addr stop prot region).prot =
      if inRange addr stop region then prot else region.prot := by
  rw [protectRegion, inRange]
  split <;> rfl

theorem findRegion_protected (virt : Nat) :
    (space.protectedSpace addr stop prot).findRegion virt =
      (space.findRegion virt).map (protectRegion addr stop prot) := by
  have same : ∀ region : VmaRegion,
      (protectRegion addr stop prot region).contains virt = region.contains virt := by
    intro region
    rcases @protectRegion_bounds addr prot region stop with ⟨sameStart, sameStop, _⟩
    rw [VmaRegion.contains, VmaRegion.contains, sameStart, sameStop]
  rw [findRegion, findRegion, protectedSpace, List.find?_map]
  congr 2
  funext region
  exact same region

/-- A process can do with a page what the region says. A copy-on-write page waits for its write
fault. -/
def Agrees (flags : PageFlags) (prot : Prot) : Prop :=
  flags.user = prot.read ∧ (flags.user && !flags.noExecute) = prot.exec ∧
    ((flags.user && flags.writable) = prot.write ∨
      (flags.user = true ∧ flags.cow = true ∧ flags.writable = false ∧ prot.write = true))

/-- Permissions that the flags of `prot_to_flags` come to below the upper tables. These flags
always let a process read. -/
structure ComesTo (above : PageFlags) (prot result : Prot) : Prop where
  read : result.read = above.user
  write : result.write = (above.user && above.writable && prot.write)
  exec : result.exec = (above.user && !above.noExecute && prot.exec)

theorem agrees_through {above : PageFlags} {result : Prot} :
    Agrees (above.through (protToFlags prot)) result ↔ ComesTo above prot result := by
  constructor
  · rintro ⟨read, exec, write⟩
    simp only [PageFlags.through, protToFlags, Bool.and_true, Bool.not_or, Bool.not_not,
      Bool.false_eq_true, false_and, and_false, or_false, ← Bool.and_assoc] at read exec write
    exact ⟨read.symm, write.symm, exec.symm⟩
  · rintro ⟨read, write, exec⟩
    simp [Agrees, PageFlags.through, protToFlags, read, write, exec, Bool.and_assoc]

/-- The regions in the range have the new permissions, the others keep theirs, and the
page tables of the user half say the same as the regions. -/
structure ProtectsExactly (space : AddressSpace) (memory : MemoryState allocator)
    (addr len : Nat) (prot : Prot) (result : AddressSpace × MemoryState allocator) : Prop where
  inside : ∀ virt, Canonical virt → addr ≤ virt → virt < addr + len →
    memory.translate space.pml4 virt ≠ none ∨ space.findRegion virt ≠ none →
    (result.1.findRegion virt).map VmaRegion.prot = some prot
  outside : ∀ virt, ¬(addr ≤ virt ∧ virt < addr + len) →
    (result.1.findRegion virt).map VmaRegion.prot = (space.findRegion virt).map VmaRegion.prot
  agree : ∀ virt flags, virt < userTop → result.2.rights space.pml4 virt = some flags →
    ∃ region, result.1.findRegion virt = some region ∧ Agrees flags region.prot

/-- The pages that the loop visits. -/
abbrev Reflagged (space : AddressSpace) (memory : MemoryState allocator) (addr len number : Nat) :
    Prop :=
  memory.Visited space.pml4 (fun index => pageNumber (pageAddress addr index)) (pageCount len)
    number

/-- What `mprotect` relies on. -/
structure ProtectsWhole (space : AddressSpace) (memory : MemoryState allocator) (addr len : Nat)
    (prot : Prot) : Prop where
  /-- What is mapped in the range lies in a region that the range covers, or that has the
  permissions already. -/
  named : ∀ virt, Canonical virt → addr ≤ virt → virt < addr + len →
    memory.translate space.pml4 virt ≠ none ∨ space.findRegion virt ≠ none →
    ∃ region, space.findRegion virt = some region ∧
      (inRange addr (add addr len) region = true ∨ region.prot = prot)
  /-- A page that the loop visits lies in a region that has, after the call, the permissions
  that the new flags come to. -/
  visited : ∀ virt above, virt < userTop → space.Reflagged memory addr len (pageNumber virt) →
    memory.translate space.pml4 virt ≠ none →
    memory.upper space.pml4 (pageNumber virt) = some above →
    ∃ region, space.findRegion virt = some region ∧
      ComesTo above prot (if inRange addr (add addr len) region then prot else region.prot)
  /-- The other pages agreed with their regions before, and with the new permissions of a
  region that the range covers. -/
  unvisited : ∀ virt flags, virt < userTop →
    ¬space.Reflagged memory addr len (pageNumber virt) →
    memory.rights space.pml4 virt = some flags →
    ∃ region, space.findRegion virt = some region ∧
      Agrees flags (if inRange addr (add addr len) region then prot else region.prot)

section

variable (rewrites : Rewrites memory next space.pml4 (space.Reflagged memory addr len) (reflag
  (protToFlags prot)))
include rewrites

theorem rights_visited {virt : Nat}
    (isVisited : space.Reflagged memory addr len (pageNumber virt)) :
    next.rights space.pml4 virt = (memory.upper space.pml4 (pageNumber virt)).bind fun above =>
      (memory.page space.pml4 (pageNumber virt)).map fun _ =>
        above.through (protToFlags prot) := by
  rw [rights_eq, rewrites.upper, rewrites.inside isVisited]
  cases memory.page space.pml4 (pageNumber virt) <;> rfl

theorem rights_unvisited {virt : Nat}
    (notVisited : ¬space.Reflagged memory addr len (pageNumber virt)) :
    next.rights space.pml4 virt = memory.rights space.pml4 virt := by
  rw [rights_eq, rights_eq, rewrites.upper, rewrites.outside notVisited]

theorem ProtectsExactly.whole (protects : ProtectsExactly space memory addr len prot
      (space.protectedSpace addr (add addr len) prot, next)) :
    ProtectsWhole space memory addr len prot where
  named := by
    intro virt canonical lower upper mapped
    have permission := protects.inside virt canonical lower upper mapped
    rw [findRegion_protected, map_map] at permission
    rcases map_eq_some_iff.mp permission with ⟨region, found, same⟩
    refine ⟨region, found, ?_⟩
    rw [Function.comp_apply, protectRegion_prot] at same
    split at same
    next isIn => exact .inl isIn
    next => exact .inr same
  visited := by
    intro virt above user isVisited mapped isAbove
    rw [translate_eq] at mapped
    rcases ne_none_iff_exists'.mp mapped with ⟨frame, isFrame⟩
    rcases map_eq_some_iff.mp isFrame with ⟨entry, present, _⟩
    have changed := rights_visited rewrites isVisited
    rw [isAbove, present] at changed
    rcases protects.agree virt _ user changed with ⟨part, isPart, agrees⟩
    rw [findRegion_protected] at isPart
    rcases map_eq_some_iff.mp isPart with ⟨region, found, same⟩
    rw [← same, protectRegion_prot] at agrees
    exact ⟨region, found, agrees_through.mp agrees⟩
  unvisited := by
    intro virt flags user notVisited present
    rcases protects.agree virt flags user
      ((rights_unvisited rewrites notVisited).trans present) with ⟨part, isPart, agrees⟩
    rw [findRegion_protected] at isPart
    rcases map_eq_some_iff.mp isPart with ⟨region, found, same⟩
    refine ⟨region, found, ?_⟩
    rw [← protectRegion_prot, same]
    exact agrees

theorem ProtectsWhole.exactly (whole : ProtectsWhole space memory addr len prot) :
    ProtectsExactly space memory addr len prot
      (space.protectedSpace addr (add addr len) prot, next) where
  inside := by
    intro virt canonical lower upper mapped
    rcases whole.named virt canonical lower upper mapped with ⟨region, found, same⟩
    rw [findRegion_protected, found, map_some, map_some, protectRegion_prot]
    rcases same with isIn | same
    · rw [if_pos isIn]
    · rw [same, ite_self]
  outside := by
    intro virt isOutside
    rw [findRegion_protected]
    cases found : space.findRegion virt with
    | none => rfl
    | some region =>
      have contains : region.contains virt = true :=
        List.find?_some (p := fun region : VmaRegion => region.contains virt) found
      have notIn : ¬inRange addr (add addr len) region = true := by
        intro isIn
        have small : add addr len ≤ addr + len := Nat.mod_le _ _
        simp only [inRange, VmaRegion.contains, Bool.and_eq_true, decide_eq_true_eq] at *
        omega
      rw [map_some, map_some, map_some, protectRegion_prot, if_neg notIn]
  agree := by
    intro virt flags user changed
    rw [findRegion_protected]
    by_cases isVisited : space.Reflagged memory addr len (pageNumber virt)
    · rw [rights_visited rewrites isVisited] at changed
      rcases bind_eq_some_iff.mp changed with ⟨above, isAbove, isFlags⟩
      rcases map_eq_some_iff.mp isFlags with ⟨entry, present, rfl⟩
      have mapped : memory.translate space.pml4 virt ≠ none := by
        rw [translate_eq, present]
        exact some_ne_none entry.frame
      rcases whole.visited virt above user isVisited mapped isAbove with ⟨region, found, comes⟩
      refine ⟨_, congrArg _ found, ?_⟩
      rw [protectRegion_prot, agrees_through]
      exact comes
    · have present := (rights_unvisited rewrites isVisited).symm.trans changed
      rcases whole.unvisited virt flags user isVisited present with ⟨region, found, agrees⟩
      refine ⟨_, congrArg _ found, ?_⟩
      rw [protectRegion_prot]
      exact agrees

end

theorem onePage_findRegion {virt : Nat} (same : virt / 4096 = initialBrkStart / 4096) :
    onePageSpace.findRegion virt = some (heapRegion initialBrkStart (initialBrkStart + 4096)) := by
  have contains : (heapRegion initialBrkStart (initialBrkStart + 4096)).contains virt = true := by
    have aligned : initialBrkStart % 4096 = 0 := by decide
    rw [VmaRegion.contains, Bool.and_eq_true, decide_eq_true_eq, decide_eq_true_eq]
    change initialBrkStart ≤ virt ∧ virt < initialBrkStart + 4096
    omega
  exact List.find?_cons_of_pos (p := fun region : VmaRegion => region.contains virt) contains

def twoPageMemory : MemoryState Phys.allocator :=
  { onePageMemory with
    tables := onePageTables.write 4 1 (some ⟨6, ⟨true, true, false, true⟩⟩) }

def twoPageSpace : AddressSpace :=
  ⟨1, [heapRegion initialBrkStart (initialBrkStart + 8192)], initialBrkStart + 8192,
    initialBrkStart, initialMmapBase⟩

end Qunix.Memory.Vmm.AddressSpace
