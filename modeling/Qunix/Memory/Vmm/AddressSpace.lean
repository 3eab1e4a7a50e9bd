import Qunix.Arch.Paging
import Qunix.Foundation.Word

/-! # Address spaces

`memory/vmm.rs`: regions, copy-on-write fork, and the system calls that change
mappings. The page allocations of `map_page` panic when memory runs out; such a
run has no result, `none`.
-/

namespace Qunix.Memory.Vmm

open Foundation Arch

/-! ## Copy-on-write reference counts -/

/-- `MAX_FRAMES`, the length of `COW_REFCOUNTS`. -/
def maxFrames : Nat := 1024 * 1024

def maxRefcount : Nat := 2 ^ 16 - 1

end Qunix.Memory.Vmm

namespace Qunix.Arch.MemoryState

open Memory.Vmm

variable {allocator : Memory.FrameAllocator} (self : MemoryState allocator)

/-- 0 and 1 both stand for one mapping, so the first share goes to 2. -/
def cowShare (frame : Nat) : MemoryState allocator :=
  if frame < maxFrames then
    { self with
      refcounts := Function.update self.refcounts frame
        (if self.refcounts frame = 0 then 2
          else if self.refcounts frame < maxRefcount then self.refcounts frame + 1
          else self.refcounts frame) }
  else self

def cowDec (frame : Nat) : Nat × MemoryState allocator :=
  if frame < maxFrames then
    (self.refcounts frame - 1,
      { self with
        refcounts := Function.update self.refcounts frame (self.refcounts frame - 1) })
  else (0, self)

def fillFrame (frame : Nat) (content : Nat → UInt8) :
    MemoryState allocator :=
  { self with bytes := Function.update self.bytes frame content }

end Qunix.Arch.MemoryState

namespace Qunix.Memory.Vmm

open Foundation Arch

/-! ## Regions -/

inductive RegionKind
  | anonymous
  | stack
  | heap
  | file (dev ino offset : Nat)
  | shared
  | device
  | vdso
deriving DecidableEq

structure Prot where
  read : Bool
  write : Bool
  exec : Bool
deriving DecidableEq

/-- `start..stop`, where `stop` is the source's `end`. -/
structure VmaRegion where
  start : Nat
  stop : Nat
  prot : Prot
  kind : RegionKind
  flags : Nat
  cow : Bool
deriving DecidableEq

namespace VmaRegion

def contains (self : VmaRegion) (addr : Nat) : Bool := addr ≥ self.start && addr < self.stop

/-- The region meets the addresses `first..last`. -/
def meets (self : VmaRegion) (first last : Nat) : Bool := self.start < last && self.stop > first

end VmaRegion

structure AddressSpace where
  /-- The frame of the top-level page table, `pml4_phys`. -/
  pml4 : Nat
  regions : List VmaRegion
  brk : Nat
  brkStart : Nat
  mmapBase : Nat
deriving DecidableEq

def initialMmapBase : Nat := 0x400000000000

def initialBrkStart : Nat := 0x100000000

def stackTop : Nat := 0x7FFFFFFF0000

def mapPrivate : Nat := 0x02

def mapFixed : Nat := 0x10

def mremapFixed : Nat := 2

def protToFlags (prot : Prot) : PageFlags where
  writable := prot.write
  user := true
  cow := false
  noExecute := !prot.exec

/-- `addr & !(PAGE_SIZE - 1)`. -/
def alignDown (addr : Nat) : Nat := addr / pageSize * pageSize

/-- `(addr + PAGE_SIZE - 1) & !(PAGE_SIZE - 1)`. -/
def alignUp (addr : Nat) : Nat := alignDown (Word.add addr (pageSize - 1))

/-- `(len + PAGE_SIZE - 1) / PAGE_SIZE`. -/
def pageCount (len : Nat) : Nat := Word.add len (pageSize - 1) / pageSize

/-- The address of the `index`-th page after `addr`. -/
def pageAddress (addr index : Nat) : Nat := Word.add addr (Word.mul index pageSize)

/-- Change the first element that satisfies the test. -/
def updateFirst {Item : Type} (test : Item → Bool) (change : Item → Item) :
    List Item → List Item
  | [] => []
  | item :: rest => if test item then change item :: rest else item :: updateFirst test change rest

/-! ## Page loops -/

section Loops

variable {allocator : FrameAllocator}

/-- Give up one mapping: the loop body of `munmap`. -/
def releasePage (memory : MemoryState allocator) (pml4 virt : Nat) : MemoryState allocator :=
  match memory.translate pml4 virt with
  | none => memory
  | some frame =>
    let counted := (memory.unmapPage pml4 virt).cowDec frame
    if counted.1 == 0 then counted.2.freeFrame frame else counted.2

/-- Take back a mapping of `map_range`, which is not counted. -/
def discardPage (memory : MemoryState allocator) (pml4 virt : Nat) : MemoryState allocator :=
  match memory.translate pml4 virt with
  | none => memory
  | some frame => (memory.freeFrame frame).unmapPage pml4 virt

def keepPage (memory : MemoryState allocator) (_pml4 _virt : Nat) : MemoryState allocator := memory

/-- A loop over the pages after `addr`. -/
def forPages (body : MemoryState allocator → Nat → Nat → MemoryState allocator)
    (memory : MemoryState allocator) (pml4 addr : Nat) : (count : Nat) → MemoryState allocator
  | 0 => memory
  | count + 1 =>
    body (forPages body memory pml4 addr count) pml4 (pageAddress addr count)

/-- Map pages `index` to `index + count` after `addr` to new frames. When an
allocation fails, `undo` runs over the pages mapped so far. -/
def mapFresh (undo : MemoryState allocator → Nat → Nat → MemoryState allocator)
    (content : MemoryState allocator → Nat → Nat → UInt8) (pml4 addr : Nat)
    (flags : PageFlags) : (index count : Nat) → MemoryState allocator →
    Option (Bool × MemoryState allocator)
  | _, 0, memory => some (true, memory)
  | index, count + 1, memory =>
    match memory.allocFrame with
    | (none, memory) => some (false, forPages undo memory pml4 addr index)
    | (some frame, memory) => do
        let memory ← (memory.fillFrame frame (content memory index)).mapPage pml4
          (pageAddress addr index) frame flags
        mapFresh undo content pml4 addr flags (index + 1) count memory

def zeroes (_memory : MemoryState allocator) (_index _offset : Nat) : UInt8 := 0

/-- The bytes of a file from the page on, then zeros. -/
def fileContent (fileData : Option (List UInt8)) (_memory : MemoryState allocator)
    (index offset : Nat) : UInt8 :=
  match fileData with
  | none => 0
  | some data => data.getD (index * pageSize + offset) 0

/-- The bytes of an old mapping of `oldPages` pages, then zeros. -/
def movedContent (pml4 oldAddr oldPages : Nat) (memory : MemoryState allocator)
    (index offset : Nat) : UInt8 :=
  if index < oldPages then
    match memory.translate pml4 (pageAddress oldAddr index) with
    | some frame => memory.bytes frame offset
    | none => 0
  else 0

def mapRange (memory : MemoryState allocator) (pml4 virt pages : Nat) (flags : PageFlags) :
    Option (Bool × MemoryState allocator) :=
  mapFresh discardPage zeroes pml4 virt flags 0 pages memory

end Loops

namespace AddressSpace

variable {allocator : FrameAllocator}

/-- A new user address space. The kernel half, slots 256 to 511, is copied from
the active table. -/
def newUser (memory : MemoryState allocator) (cr3 : Nat) :
    Option AddressSpace × MemoryState allocator :=
  match memory.allocFrame with
  | (none, memory) => (none, memory)
  | (some pml4, memory) =>
    (some ⟨pml4, [], initialBrkStart, initialBrkStart, initialMmapBase⟩,
      { memory with
        tables := Function.update memory.tables pml4 fun slot =>
          if 256 ≤ slot then memory.tables cr3 slot else none })

/-! ## Fork -/

/-- Writable, not a device, not `MAP_SHARED`. -/
def canCow (region : VmaRegion) : Bool :=
  region.prot.write && region.kind != .device && region.flags % 2 == 0

def forkPage (parent child : Nat) (region : VmaRegion) (memory : MemoryState allocator)
    (virt : Nat) : Option (MemoryState allocator) :=
  match memory.translate parent virt with
  | none => some memory
  | some frame =>
    if canCow region then do
      let flags := { protToFlags { region.prot with write := false } with cow := true }
      let memory ← memory.mapPage parent virt frame flags
      let memory ← memory.mapPage child virt frame flags
      some (memory.cowShare frame)
    else do
      let memory ← memory.mapPage child virt frame (protToFlags region.prot)
      some (memory.cowShare frame)

def forkPages (parent child : Nat) (region : VmaRegion) (memory : MemoryState allocator) :
    (count : Nat) → Option (MemoryState allocator)
  | 0 => some memory
  | count + 1 => do
      let memory ← forkPages parent child region memory count
      forkPage parent child region memory (pageAddress region.start count)

def forkRegions (parent child : Nat) : List VmaRegion → MemoryState allocator →
    Option (MemoryState allocator)
  | [], memory => some memory
  | region :: rest, memory => do
      let memory ← forkPages parent child region memory
        (Word.sub region.stop region.start / pageSize)
      forkRegions parent child rest memory

def markCow (region : VmaRegion) : VmaRegion :=
  if canCow region then { region with cow := true } else region

variable (self : AddressSpace)

/-- The child, the parent and the memory after a fork. The child's regions are
cloned before the parent's are marked and then marked by the same test. -/
def copyOnFork (memory : MemoryState allocator) :
    Option (Option AddressSpace × AddressSpace × MemoryState allocator) :=
  match newUser memory self.pml4 with
  | (none, memory) => some (none, self, memory)
  | (some fresh, memory) => do
      let child := { self with pml4 := fresh.pml4 }
      let memory ← forkRegions self.pml4 child.pml4 self.regions memory
      some (some { child with regions := self.regions.map markCow },
        { self with regions := self.regions.map markCow }, memory)

/-! ## Write faults -/

def findRegion (addr : Nat) : Option VmaRegion :=
  self.regions.find? (·.contains addr)

/-- `true` when the fault was a copy-on-write fault and is resolved. -/
def handleCowFault (memory : MemoryState allocator) (faultAddr : Nat) :
    Option (Bool × MemoryState allocator) :=
  let virtPage := alignDown faultAddr
  match memory.translate self.pml4 virtPage with
  | none => some (false, memory)
  | some frame =>
    let isPteCow := ((memory.getFlags self.pml4 virtPage).map PageFlags.cow).getD false
    let isRegionCow := ((self.findRegion faultAddr).map VmaRegion.cow).getD false
    if !isPteCow && !isRegionCow then some (false, memory)
    else
      let baseProt := ((self.findRegion faultAddr).map VmaRegion.prot).getD
        ⟨true, true, false⟩
      let newFlags := protToFlags { baseProt with write := true }
      let counted := memory.cowDec frame
      if counted.1 == 0 then do
        -- The last holder takes the frame over.
        let memory ← counted.2.mapPage self.pml4 virtPage frame newFlags
        some (true, memory)
      else
        match counted.2.allocFrame with
        | (none, memory) => some (false, memory)
        | (some copy, memory) => do
            let memory ← (memory.fillFrame copy (memory.bytes frame)).mapPage self.pml4
              virtPage copy newFlags
            some (true, memory)

/-! ## `munmap`, `mmap` and `brk` -/

/-- What is left of a region when `first..last` is unmapped. -/
def cutRegion (first last : Nat) (region : VmaRegion) : List VmaRegion :=
  if region.stop ≤ first || region.start ≥ last then [region]
  else
    (if region.start < first then [{ region with stop := first }] else []) ++
    (if region.stop > last then [{ region with start := last }] else [])

def munmap (memory : MemoryState allocator) (addr len : Nat) :
    AddressSpace × MemoryState allocator :=
  if len == 0 then (self, memory)
  else
    let alignedAddr := alignDown addr
    let alignedEnd := alignUp (Word.add addr len)
    let pages := Word.sub alignedEnd alignedAddr / pageSize
    ({ self with regions := self.regions.flatMap (cutRegion alignedAddr alignedEnd) },
      forPages releasePage memory self.pml4 alignedAddr pages)

def pickAddr (hint : Option Nat) (size : Nat) : Nat × AddressSpace :=
  let fallback := (self.mmapBase,
    { self with mmapBase := Word.add self.mmapBase (Word.add size pageSize) })
  match hint with
  | none => fallback
  | some hint =>
    let aligned := alignDown hint
    if aligned > 0 && Word.add aligned size < stackTop &&
        !self.regions.any (·.meets aligned (Word.add aligned size)) then
      (aligned, self)
    else fallback

/-- The address selection of `mmap_full`; `MAP_FIXED` unmaps what is in the way. -/
def mmapTarget (memory : MemoryState allocator) (hint : Option Nat)
    (mapLen mapFlags : Nat) : Option Nat × AddressSpace × MemoryState allocator :=
  if mapFlags / mapFixed % 2 != 0 then
    match hint with
    | none => (none, self, memory)
    | some hint =>
      let aligned := alignDown hint
      if aligned == 0 || Word.add aligned mapLen > stackTop then (none, self, memory)
      else
        let unmapped := self.munmap memory aligned mapLen
        (some aligned, unmapped.1, unmapped.2)
  else
    let picked := self.pickAddr hint mapLen
    (some picked.1, picked.2, memory)

def mmapKind (mapFlags : Nat) (fileData : Option (List UInt8)) : RegionKind :=
  if fileData.isSome && mapFlags % 2 == 0 then .anonymous
  else if fileData.isSome then .shared
  else .anonymous

def mmapFull (memory : MemoryState allocator) (hint : Option Nat)
    (len : Nat) (prot : Prot) (mapFlags : Nat) (fileData : Option (List UInt8)) :
    Option (Option Nat × AddressSpace × MemoryState allocator) :=
  let pages := pageCount len
  let mapLen := Word.mul pages pageSize
  match self.mmapTarget memory hint mapLen mapFlags with
  | (none, self, memory) => some (none, self, memory)
  | (some addr, self, memory) => do
      let (mapped, memory) ← mapFresh releasePage (fileContent fileData) self.pml4 addr
        (protToFlags prot) 0 pages memory
      if mapped then
        some (some addr, { self with
          regions := self.regions ++ [{
            start := addr
            stop := Word.add addr mapLen
            prot := prot
            kind := mmapKind mapFlags fileData
            flags := mapFlags
            cow := false }] }, memory)
      else some (none, self, memory)

def isHeap (region : VmaRegion) : Bool := region.kind == .heap

/-- Map the pages between the old and the new end of the heap. -/
def growHeap (memory : MemoryState allocator) (oldEnd newEnd : Nat) :
    Option (Bool × MemoryState allocator) :=
  if oldEnd < newEnd then
    mapRange memory self.pml4 oldEnd (Word.sub newEnd oldEnd / pageSize)
      ⟨true, true, false, true⟩
  else some (true, memory)

def setBrk (memory : MemoryState allocator) (newBrk : Nat) :
    Option (Nat × AddressSpace × MemoryState allocator) :=
  if newBrk < self.brkStart then some (self.brk, self, memory)
  else
    let oldEnd := alignUp self.brk
    let newEnd := alignUp newBrk
    let brkStartAligned := alignUp self.brkStart
    if newBrk < self.brk then
      let shrunk := if newEnd < oldEnd then
          self.munmap memory newEnd (Word.sub oldEnd newEnd)
        else (self, memory)
      some (newBrk, { shrunk.1 with
        regions := updateFirst isHeap
          (fun region => { region with stop := max newEnd brkStartAligned }) shrunk.1.regions
        brk := newBrk }, shrunk.2)
    else if newBrk == self.brk then some (self.brk, self, memory)
    else do
      let (mapped, memory) ← self.growHeap memory oldEnd newEnd
      if mapped then
        let regions :=
          if self.regions.any isHeap then
            updateFirst isHeap (fun region => { region with stop := newEnd }) self.regions
          else
            self.regions ++ [{
              start := brkStartAligned
              stop := newEnd
              prot := ⟨true, true, false⟩
              kind := .heap
              flags := mapPrivate
              cow := false }]
        some (newBrk, { self with regions := regions, brk := newBrk }, memory)
      else some (self.brk, self, memory)

/-! ## `mremap` and `mprotect` -/

/-- What `mremap` takes over from the region of the old mapping. -/
structure Inherited where
  prot : Prot
  kind : RegionKind
  flags : Nat

def inherited (oldAligned oldMapLen : Nat) : Inherited :=
  match self.regions.find? fun region =>
      region.start ≤ oldAligned && region.stop ≥ Word.add oldAligned oldMapLen with
  | some region => ⟨region.prot, region.kind, region.flags⟩
  | none => ⟨⟨true, true, false⟩, .anonymous, mapPrivate⟩

def pushRegion (start mapLen : Nat) (source : Inherited) : AddressSpace :=
  { self with
    regions := self.regions ++ [{
      start := start
      stop := Word.add start mapLen
      prot := source.prot
      kind := source.kind
      flags := source.flags
      cow := false }] }

def mremapShrink (memory : MemoryState allocator)
    (oldAligned oldPages newPages : Nat) : AddressSpace × MemoryState allocator :=
  let oldMapLen := Word.mul oldPages pageSize
  let newMapLen := Word.mul newPages pageSize
  let shrunk :=
    if newPages < oldPages then
      self.munmap memory (Word.add oldAligned newMapLen) (Word.sub oldMapLen newMapLen)
    else (self, memory)
  ({ shrunk.1 with
    regions := updateFirst (·.start == oldAligned)
      (fun region => { region with stop := Word.add oldAligned newMapLen }) shrunk.1.regions },
    shrunk.2)

/-- Enlarge the region of the old mapping, or add one. -/
def mremapExtend (oldAligned oldMapLen newMapLen : Nat) (source : Inherited) : AddressSpace :=
  let isOld := fun region : VmaRegion =>
    region.start == oldAligned && region.stop == Word.add oldAligned oldMapLen
  if self.regions.any isOld then
    { self with
      regions := updateFirst isOld
        (fun region => { region with stop := Word.add oldAligned newMapLen }) self.regions }
  else self.pushRegion oldAligned newMapLen source

/-- The address a moved mapping goes to. -/
def mremapTarget (memory : MemoryState allocator)
    (newMapLen flags newAddr : Nat) : Nat × AddressSpace × MemoryState allocator :=
  if flags / mremapFixed % 2 != 0 && newAddr != 0 then
    let unmapped := self.munmap memory (alignDown newAddr) newMapLen
    (alignDown newAddr, unmapped.1, unmapped.2)
  else
    let picked := self.pickAddr none newMapLen
    (picked.1, picked.2, memory)

def mremapMove (memory : MemoryState allocator)
    (oldAligned oldPages newPages flags newAddr : Nat) (source : Inherited) :
    Option (Option Nat × AddressSpace × MemoryState allocator) :=
  let oldMapLen := Word.mul oldPages pageSize
  let newMapLen := Word.mul newPages pageSize
  match self.mremapTarget memory newMapLen flags newAddr with
  | (dest, self, memory) => do
      let (mapped, memory) ← mapFresh keepPage (movedContent self.pml4 oldAligned oldPages)
        self.pml4 dest (protToFlags source.prot) 0 newPages memory
      if mapped then
        let unmapped := self.munmap memory oldAligned oldMapLen
        some (some dest, unmapped.1.pushRegion dest newMapLen source, unmapped.2)
      else some (none, self, memory)

/-- Map the pages after the old mapping, if no region is in the way. -/
def mremapInPlace (memory : MemoryState allocator)
    (oldAligned oldPages newPages : Nat) (prot : Prot) : Option (Bool × MemoryState allocator) :=
  let extStart := Word.add oldAligned (Word.mul oldPages pageSize)
  let extPages := newPages - oldPages
  let extLen := Word.mul extPages pageSize
  if self.regions.any (·.meets extStart (Word.add extStart extLen)) then some (false, memory)
  else mapRange memory self.pml4 extStart extPages (protToFlags prot)

def mremapGrow (memory : MemoryState allocator)
    (oldAligned oldPages newPages flags newAddr : Nat) (source : Inherited) :
    Option (Option Nat × AddressSpace × MemoryState allocator) := do
  let (extended, memory) ← self.mremapInPlace memory oldAligned oldPages newPages source.prot
  if extended then
    some (some oldAligned, self.mremapExtend oldAligned (Word.mul oldPages pageSize)
      (Word.mul newPages pageSize) source, memory)
  else if flags % 2 == 0 then
    -- `MREMAP_MAYMOVE` is not set.
    some (none, self, memory)
  else self.mremapMove memory oldAligned oldPages newPages flags newAddr source

def mremap (memory : MemoryState allocator) (oldAddr oldLen newLen flags newAddr : Nat) :
    Option (Option Nat × AddressSpace × MemoryState allocator) :=
  let oldAligned := alignDown oldAddr
  let oldPages := pageCount oldLen
  let newPages := pageCount newLen
  let oldMapLen := Word.mul oldPages pageSize
  if oldAligned == 0 || Word.add oldAligned oldMapLen > stackTop then some (none, self, memory)
  else if newLen == 0 then
    let unmapped := self.munmap memory oldAligned oldMapLen
    some (some oldAligned, unmapped.1, unmapped.2)
  else if newPages ≤ oldPages then
    let shrunk := self.mremapShrink memory oldAligned oldPages newPages
    some (some oldAligned, shrunk.1, shrunk.2)
  else
    self.mremapGrow memory oldAligned oldPages newPages flags newAddr
      (self.inherited oldAligned oldMapLen)

/-- Map every present page after `addr` again with new flags. -/
def protectPages (flags : PageFlags) (memory : MemoryState allocator) (pml4 addr : Nat) :
    (count : Nat) → Option (MemoryState allocator)
  | 0 => some memory
  | count + 1 => do
      let memory ← protectPages flags memory pml4 addr count
      match memory.translate pml4 (pageAddress addr count) with
      | none => some memory
      | some frame => memory.mapPage pml4 (pageAddress addr count) frame flags

def mprotect (memory : MemoryState allocator) (addr len : Nat)
    (prot : Prot) : Option (AddressSpace × MemoryState allocator) := do
  let memory ← protectPages (protToFlags prot) memory self.pml4 addr (pageCount len)
  let stop := Word.add addr len
  some ({ self with
    regions := self.regions.map fun region =>
      if region.start ≥ addr && region.stop ≤ stop then { region with prot := prot }
      else region }, memory)

end AddressSpace

end Qunix.Memory.Vmm
