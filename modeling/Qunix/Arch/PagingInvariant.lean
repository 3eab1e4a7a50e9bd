import Qunix.Arch.Paging

/-! # What the page mapper keeps invariant

Page tables of different address spaces share no table of the user half, and no
frame is at once free, a table, and a mapped page. Under this layout the four
levels behave as one flat map from roots and page numbers to entries.
-/

namespace Qunix.Arch.MemoryState

open Foundation Memory

variable {allocator : FrameAllocator}

/-- The frame holds data: it is neither free nor a page table. -/
structure InUse (memory : MemoryState allocator) (roots : Nat → Prop) (frame : Nat) : Prop where
  positive : 0 < frame
  below : frame < Phys.maxFrames
  notFree : ¬allocator.IsFree memory.frames frame
  notTable : ¬memory.IsTable roots frame

structure Layout (memory : MemoryState allocator) (roots : Nat → Prop) : Prop where
  valid : allocator.Valid memory.frames
  forest : memory.tables.Forest PageTableEntry.frame 512 roots pathWidth 3
  tableUsed : ∀ table, memory.IsTable roots table → ¬allocator.IsFree memory.frames table
  pageUsed : ∀ {root number entry}, roots root → number < userPages →
    memory.page root number = some entry → memory.InUse roots entry.frame

variable {frame table below : Nat} {entry : Option PageTableEntry}

section Transfer

variable {before next : MemoryState allocator} {roots : Nat → Prop}

/-- Whether a frame is in use depends on the allocator and the tables only. -/
theorem InUse.transfer (inUse : before.InUse roots frame) (frames : next.frames = before.frames)
    (tables : next.tables = before.tables) :
    next.InUse roots frame where
  positive := inUse.positive
  below := inUse.below
  notFree := frames ▸ inUse.notFree
  notTable := by
    rw [IsTable, tables]
    exact inUse.notTable

theorem Layout.transfer (layout : before.Layout roots) (frames : next.frames = before.frames)
    (tables : next.tables = before.tables) : next.Layout roots where
  valid := frames ▸ layout.valid
  forest := tables ▸ layout.forest
  tableUsed := by
    intro table isTable
    rw [IsTable, tables] at isTable
    rw [frames]
    exact layout.tableUsed table isTable
  pageUsed := by
    intro root number entry isRoot user present
    rw [page, tables] at present
    exact (layout.pageUsed isRoot user present).transfer frames tables

end Transfer

/-! ## Allocation -/

theorem InUse.mono {before next : MemoryState allocator} {roots : Nat → Prop}
    (inUse : before.InUse roots frame)
    (isFree : allocator.IsFree next.frames frame → allocator.IsFree before.frames frame)
    (isTable : next.IsTable roots frame →
      before.IsTable roots frame ∨ allocator.IsFree before.frames frame) :
    next.InUse roots frame where
  positive := inUse.positive
  below := inUse.below
  notFree := fun free => inUse.notFree (isFree free)
  notTable := by
    intro table
    rcases isTable table with table | free
    · exact inUse.notTable table
    · exact inUse.notFree free

/-- Tables may have been made out of free frames, and nothing else changed. -/
structure Grows (before next : MemoryState allocator) (roots : Nat → Prop) : Prop where
  layout : next.Layout roots
  cpu : next.cpu = before.cpu
  page : ∀ {root number}, roots root → number < userPages →
    next.page root number = before.page root number
  bytes : next.bytes = before.bytes
  refcounts : next.refcounts = before.refcounts
  isFree : ∀ frame, allocator.IsFree next.frames frame → allocator.IsFree before.frames frame
  isTable : ∀ frame, next.IsTable roots frame →
    before.IsTable roots frame ∨ allocator.IsFree before.frames frame

namespace Grows

variable {first second third : MemoryState allocator} {roots : Nat → Prop}

theorem refl (layout : first.Layout roots) : Grows first first roots :=
  ⟨layout, rfl, fun _ _ => rfl, rfl, rfl, fun _ free => free, fun _ table => .inl table⟩

theorem trans (left : Grows first second roots) (right : Grows second third roots) :
    Grows first third roots where
  layout := right.layout
  cpu := right.cpu.trans left.cpu
  page := fun isRoot user => (right.page isRoot user).trans (left.page isRoot user)
  bytes := right.bytes.trans left.bytes
  refcounts := right.refcounts.trans left.refcounts
  isFree := fun frame free => left.isFree frame (right.isFree frame free)
  isTable := by
    intro frame isTable
    rcases right.isTable frame isTable with isTable | free
    · exact left.isTable frame isTable
    · exact .inr (left.isFree frame free)

theorem inUse (grows : Grows first second roots) (inUse : first.InUse roots frame) :
    second.InUse roots frame :=
  inUse.mono (grows.isFree frame) (grows.isTable frame)

end Grows

variable {self : MemoryState allocator} {frame root number : Nat}

theorem Layout.taken {roots : Nat → Prop} {frames : allocator.State} (layout : self.Layout roots)
    (valid : allocator.Valid frames)
    (shrinks : ∀ other, allocator.IsFree frames other → allocator.IsFree self.frames other) :
    Grows self { self with frames := frames } roots := by
  refine ⟨⟨valid, layout.forest, ?_, ?_⟩, rfl, fun _ _ => rfl, rfl, rfl, shrinks,
    fun _ table => .inl table⟩
  · intro table isTable free
    exact layout.tableUsed table isTable (shrinks table free)
  · intro root number entry isRoot user found
    have inUse := layout.pageUsed isRoot user found
    exact ⟨inUse.positive, inUse.below, fun free => inUse.notFree (shrinks _ free), inUse.notTable⟩

theorem allocFrame_some {next : MemoryState allocator} {roots : Nat → Prop}
    (layout : self.Layout roots) (allocated : self.allocFrame = (some frame, next)) :
    Grows self next roots ∧ next.InUse roots frame ∧ allocator.IsFree self.frames frame ∧
      next.tables = self.tables := by
  rw [Prod.mk.injEq] at allocated
  rcases allocated with ⟨answer, nextEq⟩
  subst nextEq
  rcases allocator.alloc_some layout.valid (Prod.ext answer rfl) with ⟨valid, wasFree, isFree⟩
  have bounds := allocator.free_bounds layout.valid wasFree
  refine ⟨layout.taken valid fun other free => ((isFree other).mp free).1,
    ⟨bounds.1, bounds.2, ?_, ?_⟩, wasFree, rfl⟩
  · intro free
    exact ((isFree frame).mp free).2 rfl
  · intro isTable
    exact layout.tableUsed frame isTable wasFree

theorem allocFrame_isFree {next : MemoryState allocator} (valid : allocator.Valid self.frames)
    (allocated : self.allocFrame = (some frame, next)) (other : Nat) :
    allocator.IsFree next.frames other ↔ allocator.IsFree self.frames other ∧ ¬other = frame := by
  rw [Prod.mk.injEq] at allocated
  rw [← allocated.2]
  exact (allocator.alloc_some valid (Prod.ext allocated.1 rfl)).2.2 other

theorem allocFrame_none {next : MemoryState allocator} {roots : Nat → Prop}
    (layout : self.Layout roots) (failed : self.allocFrame = (none, next)) :
    Grows self next roots ∧ next.tables = self.tables := by
  rw [Prod.mk.injEq] at failed
  rcases failed with ⟨answer, nextEq⟩
  subst nextEq
  rcases allocator.alloc_none layout.valid (Prod.ext answer rfl) with ⟨valid, isFree⟩
  exact ⟨layout.taken valid fun other free => (isFree other).mp free, rfl⟩

theorem freeFrame_spec {roots : Nat → Prop}
    (layout : self.Layout roots) (inUse : self.InUse roots frame)
    (unmapped : ∀ {root number entry}, roots root → number < userPages →
      self.page root number = some entry → entry.frame ≠ frame) :
    (self.freeFrame frame).Layout roots ∧
    ∀ other, allocator.IsFree (self.freeFrame frame).frames other ↔
      allocator.IsFree self.frames other ∨ other = frame := by
  rcases @FrameAllocator.free_taken allocator _ self.cpu _ layout.valid inUse.positive
    inUse.below inUse.notFree with ⟨valid, isFree⟩
  refine ⟨⟨valid, layout.forest, ?_, ?_⟩, isFree⟩
  · intro table isTable free
    rcases (isFree table).mp free with free | same
    · exact layout.tableUsed table isTable free
    · exact inUse.notTable (same ▸ isTable)
  · intro root number entry isRoot user found
    have pageUse := layout.pageUsed isRoot user found
    refine ⟨pageUse.positive, pageUse.below, fun free => ?_, pageUse.notTable⟩
    rcases (isFree entry.frame).mp free with free | same
    · exact pageUse.notFree free
    · exact unmapped isRoot user found same

/-! ## Mapping and unmapping -/

variable {flags : PageFlags} {virt : Nat}

theorem ensureTable_some {next : MemoryState allocator} {slot : Nat}
    (ensured : self.ensureTable table slot flags = some (next, below)) :
    (next = self ∧ ∃ entry, self.tables table slot = some entry ∧ entry.frame = below) ∨
      self.tables table slot = none ∧ ∃ taken, self.allocFrame = (some below, taken) ∧
        next = { taken with
          tables := taken.tables.hang table slot below
            ⟨below, { flags with writable := true }⟩ } := by
  rw [ensureTable] at ensured
  split at ensured
  next entry present =>
    cases ensured
    exact .inl ⟨rfl, entry, present, rfl⟩
  next absent =>
    rcases result : self.allocFrame with ⟨answer, taken⟩
    rw [result] at ensured
    cases answer with
    | none => cases ensured
    | some frame =>
      cases ensured
      exact .inr ⟨absent, taken, rfl, rfl⟩

theorem ensureTable_spec {next : MemoryState allocator} {roots : Nat → Prop} {depth path : Nat}
    (layout : self.Layout roots) (isRoot : roots root) (inner : depth < 3)
    (inside : path < pathWidth (depth + 1))
    (found : self.tables.tableAt PageTableEntry.frame 512 root depth (path / 512) = some table)
    (ensured : self.ensureTable table (path % 512) flags = some (next, below)) :
    Grows self next roots ∧
      next.tables.tableAt PageTableEntry.frame 512 root (depth + 1) path = some below := by
  rcases ensureTable_some ensured with ⟨rfl, entry, present, rfl⟩ | ⟨absent, taken, result, rfl⟩
  · exact ⟨Grows.refl layout, by simp [Tables.tableAt, found, present]⟩
  rcases allocFrame_some layout result with ⟨grows, inUse, wasFree, sameTables⟩
  have forest := grows.layout.forest
  rw [← sameTables] at found absent
  have leads : PageTableEntry.frame ⟨below, { flags with writable := true }⟩ = below := rfl
  have isTable := forest.isTable_hang isRoot inner inside found absent inUse.notTable leads
  have entryAt := @Tables.Forest.entryAt_hang _ _ _ _ _ _ _ forest _ _ _ _ _ _ isRoot inner
    inside found absent inUse.notTable leads
  have reached := forest.tableAt_hang isRoot inner inside found absent inUse.notTable leads
    isRoot (Nat.succ_le_of_lt inner) inside
  rw [if_pos ⟨rfl, rfl, rfl⟩] at reached
  refine ⟨⟨⟨grows.layout.valid, ?_, ?_, ?_⟩, grows.cpu, ?_, grows.bytes,
    grows.refcounts, grows.isFree, ?_⟩, reached⟩
  · exact forest.hang isRoot inner inside found absent inUse.notTable leads
  · intro candidate candidateTable free
    rcases (isTable candidate).mp candidateTable with old | same
    · exact grows.layout.tableUsed candidate old free
    · exact inUse.notFree (same ▸ free)
  · intro other number entry isOther user present
    rw [page, entryAt isOther (pathWidth_four ▸ user)] at present
    have pageUse := grows.layout.pageUsed isOther user present
    refine ⟨pageUse.positive, pageUse.below, pageUse.notFree, fun pageTable => ?_⟩
    rcases (isTable entry.frame).mp pageTable with old | same
    · exact pageUse.notTable old
    · -- The new table was free, so no page could be mapped to it.
      have before := layout.pageUsed isOther user
        ((grows.page isOther user).symm.trans present)
      exact before.notFree (same ▸ wasFree)
  · intro other number isOther user
    rw [page, entryAt isOther (pathWidth_four ▸ user)]
    exact grows.page isOther user
  · intro candidate candidateTable
    rcases (isTable candidate).mp candidateTable with old | same
    · exact grows.isTable candidate old
    · exact .inr (same ▸ wasFree)

/-- One page got a new entry, or none, and nothing else a user can see changed. -/
structure Remaps (before next : MemoryState allocator) (roots : Nat → Prop)
    (root number : Nat) (entry : Option PageTableEntry) : Prop where
  layout : next.Layout roots
  cpu : next.cpu = before.cpu
  page : ∀ {other otherNumber}, roots other → otherNumber < userPages →
    next.page other otherNumber =
      if other = root ∧ otherNumber = number then entry else before.page other otherNumber
  bytes : next.bytes = before.bytes
  refcounts : next.refcounts = before.refcounts
  isFree : ∀ frame, allocator.IsFree next.frames frame → allocator.IsFree before.frames frame
  isTable : ∀ frame, next.IsTable roots frame →
    before.IsTable roots frame ∨ allocator.IsFree before.frames frame

theorem Grows.remaps {first second third : MemoryState allocator} {roots : Nat → Prop}
    (grows : Grows first second roots) (remaps : Remaps second third roots root number entry) :
    Remaps first third roots root number entry where
  layout := remaps.layout
  cpu := remaps.cpu.trans grows.cpu
  page := by
    intro other otherNumber isOther user
    rw [remaps.page isOther user, grows.page isOther user]
  bytes := remaps.bytes.trans grows.bytes
  refcounts := remaps.refcounts.trans grows.refcounts
  isFree := fun frame free => grows.isFree frame (remaps.isFree frame free)
  isTable := by
    intro frame isTable
    rcases remaps.isTable frame isTable with isTable | free
    · exact grows.isTable frame isTable
    · exact .inr (grows.isFree frame free)

theorem Remaps.inUse {first second : MemoryState allocator} {roots : Nat → Prop}
    (remaps : Remaps first second roots root number entry) (inUse : first.InUse roots frame) :
    second.InUse roots frame :=
  inUse.mono (remaps.isFree frame) (remaps.isTable frame)

theorem write_remaps {roots : Nat → Prop} (layout : self.Layout roots) (isRoot : roots root)
    (user : number < userPages)
    (found : self.tables.tableAt PageTableEntry.frame 512 root 3 (number / 512) = some table)
    (entry : Option PageTableEntry)
    (inUse : ∀ value, entry = some value → self.InUse roots value.frame) :
    Remaps self { self with tables := self.tables.write table (number % 512) entry }
      roots root number entry := by
  have inside : number < pathWidth (3 + 1) := pathWidth_four ▸ user
  have parentInside := layout.forest.parent_lt inside
  have tableAt := @Tables.Forest.tableAt_write _ _ _ _ _ _ _ layout.forest _ _ _ (number % 512)
    isRoot parentInside found entry
  have entryAt := @Tables.Forest.entryAt_write _ _ _ _ _ _ _ layout.forest _ _ _ isRoot inside
    found entry
  have isTable : ∀ frame,
      MemoryState.IsTable { self with tables := self.tables.write table (number % 512) entry }
        roots frame → self.IsTable roots frame := by
    intro frame isTable
    rcases isTable with ⟨other, depth, path, isOther, below, pathInside, reached⟩
    rw [tableAt isOther below pathInside] at reached
    exact ⟨other, depth, path, isOther, below, pathInside, reached⟩
  refine ⟨⟨layout.valid, ?_, ?_, ?_⟩, rfl, ?_, rfl, rfl, fun _ free => free,
    fun frame reached => .inl (isTable frame reached)⟩
  · exact layout.forest.write isRoot parentInside found entry
  · intro candidate candidateTable
    exact layout.tableUsed candidate (isTable candidate candidateTable)
  · intro other otherNumber value isOther otherUser present
    rw [page, entryAt isOther (pathWidth_four ▸ otherUser)] at present
    have pageUse : self.InUse roots value.frame := by
      split at present
      next => exact inUse value present
      next => exact layout.pageUsed isOther otherUser present
    exact ⟨pageUse.positive, pageUse.below, pageUse.notFree,
      fun reached => pageUse.notTable (isTable _ reached)⟩
  · intro other otherNumber isOther otherUser
    exact entryAt isOther (pathWidth_four ▸ otherUser)

theorem mapPage_walk {next : MemoryState allocator} {roots : Nat → Prop}
    {Kept : MemoryState allocator → Prop} (layout : self.Layout roots)
    (isRoot : roots root) (user : pageNumber virt < userPages)
    (mapped : self.mapPage root virt frame flags = some next) (start : Kept self)
    (ensure : ∀ {state after : MemoryState allocator} {depth path table below : Nat},
      Grows self state roots → Kept state → depth < 3 → path < pathWidth (depth + 1) →
      state.tables.tableAt PageTableEntry.frame 512 root depth (path / 512) = some table →
      state.ensureTable table (path % 512) flags = some (after, below) → Kept after) :
    ∃ third table, Grows self third roots ∧ Kept third ∧
      third.tables.tableAt PageTableEntry.frame 512 root 3 (pageNumber virt / 512) = some table ∧
      next = { third with
        tables := third.tables.write table (pageNumber virt % 512) (some ⟨frame, flags⟩) } := by
  have inside : pageNumber virt < pathWidth (3 + 1) := pathWidth_four ▸ user
  have insideTwo := layout.forest.parent_lt inside
  have insideOne := layout.forest.parent_lt insideTwo
  have insideTop : pageNumber virt / 512 / 512 / 512 < pathWidth 1 :=
    layout.forest.parent_lt insideOne
  simp only [mapPage, tableIndex_zero, tableIndex_one, tableIndex_two, tableIndex_three,
    Option.bind_eq_bind, Option.bind_eq_some_iff, Prod.exists] at mapped
  rcases mapped with ⟨first, pdpt, firstEq, second, pd, secondEq, third, pt, thirdEq, lastEq⟩
  rcases ensureTable_spec layout isRoot (by decide) insideTop rfl firstEq with
    ⟨firstGrows, firstFound⟩
  have firstKept := ensure (.refl layout) start (by decide) insideTop rfl firstEq
  rcases ensureTable_spec firstGrows.layout isRoot (by decide) insideOne firstFound secondEq with
    ⟨secondGrows, secondFound⟩
  have secondKept := ensure firstGrows firstKept (by decide) insideOne firstFound secondEq
  rcases ensureTable_spec secondGrows.layout isRoot (by decide) insideTwo secondFound thirdEq with
    ⟨thirdGrows, thirdFound⟩
  have upToSecond := firstGrows.trans secondGrows
  exact ⟨third, pt, upToSecond.trans thirdGrows,
    ensure upToSecond secondKept (by decide) insideTwo secondFound thirdEq, thirdFound,
    (Option.some.inj lastEq).symm⟩

theorem mapPage_spec {next : MemoryState allocator} {roots : Nat → Prop}
    (layout : self.Layout roots) (isRoot : roots root)
    (user : pageNumber virt < userPages) (inUse : self.InUse roots frame)
    (mapped : self.mapPage root virt frame flags = some next) :
    Remaps self next roots root (pageNumber virt) (some ⟨frame, flags⟩) := by
  rcases @mapPage_walk _ _ _ _ _ _ _ _ (fun _ => True) layout isRoot user mapped trivial
    (fun _ _ _ _ _ _ => trivial) with ⟨third, table, grows, _, found, rfl⟩
  apply grows.remaps
  apply write_remaps grows.layout isRoot user found
  intro value same
  rw [← Option.some.inj same]
  exact grows.inUse inUse

theorem unmapPage_spec {roots : Nat → Prop} (layout : self.Layout roots)
    (isRoot : roots root) (user : pageNumber virt < userPages) :
    Remaps self (self.unmapPage root virt) roots root (pageNumber virt) none := by
  rw [unmapPage, getEntry_eq]
  cases found : self.tables.tableAt PageTableEntry.frame 512 root 3 (pageNumber virt / 512) with
  | none =>
    have grows := Grows.refl layout
    refine ⟨layout, rfl, ?_, rfl, rfl, grows.isFree, grows.isTable⟩
    intro other otherNumber _ _
    by_cases same : other = root ∧ otherNumber = pageNumber virt
    · rw [same.1, same.2]
      simp [page, Tables.entryAt, found]
    · rw [if_neg same]
      rfl
  | some table => exact write_remaps layout isRoot user found none (fun _ never => by cases never)

theorem plant_spec {roots : Nat → Prop} {content : Nat → Option PageTableEntry}
    (layout : self.Layout roots) (inUse : self.InUse roots root)
    (unmapped : ∀ {other number entry}, roots other → number < userPages →
      self.page other number = some entry → entry.frame ≠ root)
    (empty : ∀ slot, slot < 256 → content slot = none) :
    let next := { self with tables := Function.update self.tables root content }
    next.Layout (fun other => roots other ∨ other = root) ∧
    (∀ {other number}, roots other → number < userPages →
      next.page other number = self.page other number) ∧
    ∀ {number}, number < userPages → next.page root number = none := by
  have emptyUser : ∀ slot, slot < pathWidth 1 → content slot = none := empty
  have isTable := layout.forest.isTable_plant inUse.notTable emptyUser
  have old := @Tables.Forest.entryAt_plant_old _ _ _ _ _ _ _ layout.forest _ content
    inUse.notTable
  have new := @Tables.Forest.entryAt_plant_new _ _ _ _ _ _ _ layout.forest root _ emptyUser
  refine ⟨⟨layout.valid, layout.forest.plant inUse.notTable emptyUser, ?_, ?_⟩, ?_, ?_⟩
  · intro table reached
    rcases (isTable table).mp reached with reached | same
    · exact layout.tableUsed table reached
    · exact same ▸ inUse.notFree
  · intro other number entry isOther user present
    rcases isOther with isOther | same
    · rw [page, old isOther (pathWidth_four ▸ user)] at present
      have pageUse := layout.pageUsed isOther user present
      refine ⟨pageUse.positive, pageUse.below, pageUse.notFree, fun reached => ?_⟩
      rcases (isTable entry.frame).mp reached with reached | same
      · exact pageUse.notTable reached
      · exact unmapped isOther user present same
    · rw [same, page, new (pathWidth_four ▸ user)] at present
      cases present
  · intro other number isOther user
    exact old isOther (pathWidth_four ▸ user)
  · intro number user
    exact new (pathWidth_four ▸ user)

end Qunix.Arch.MemoryState
