import Qunix.Arch.PagingInvariant

/-! # What the page mapper leaves alone

Mapping a page of the user half loses no free frame: a frame that is taken becomes
a table. The kernel half of a root and every table that is not of a user half keep
their slots.
-/

namespace Qunix.Arch.MemoryState

open Foundation Memory

variable {allocator : FrameAllocator} {self : MemoryState allocator}
variable {frame root number table below virt : Nat} {entry : Option PageTableEntry}
variable {flags : PageFlags}

structure Conserves (before next : MemoryState allocator) (roots : Nat → Prop) : Prop where
  isFree : ∀ frame, allocator.IsFree before.frames frame →
    allocator.IsFree next.frames frame ∨ next.IsTable roots frame
  isTable : ∀ frame, before.IsTable roots frame → next.IsTable roots frame
  foreign : ∀ table, ¬allocator.IsFree before.frames table → ¬before.IsTable roots table →
    next.tables table = before.tables table
  upper : ∀ root slot, roots root → 256 ≤ slot → next.tables root slot = before.tables root slot

namespace Conserves

variable {first second third : MemoryState allocator} {roots : Nat → Prop}

theorem refl (memory : MemoryState allocator) (roots : Nat → Prop) :
    Conserves memory memory roots :=
  ⟨fun _ free => .inl free, fun _ table => table, fun _ _ _ => rfl, fun _ _ _ _ => rfl⟩

theorem trans (left : Conserves first second roots) (grows : Grows first second roots)
    (right : Conserves second third roots) : Conserves first third roots where
  isFree := by
    intro frame free
    rcases left.isFree frame free with free | isTable
    · exact right.isFree frame free
    · exact .inr (right.isTable frame isTable)
  isTable := fun frame isTable => right.isTable frame (left.isTable frame isTable)
  foreign := by
    intro table taken notTable
    have stillTaken : ¬allocator.IsFree second.frames table := fun free =>
      taken (grows.isFree table free)
    have stillForeign : ¬second.IsTable roots table := by
      intro isTable
      rcases grows.isTable table isTable with isTable | free
      · exact notTable isTable
      · exact taken free
    rw [right.foreign table stillTaken stillForeign, left.foreign table taken notTable]
  upper := by
    intro root slot isRoot above
    rw [right.upper root slot isRoot above, left.upper root slot isRoot above]

end Conserves

section Tables

variable {self next : MemoryState allocator} {roots : Nat → Prop}
variable {root depth path table : Nat}

variable (layout : self.Layout roots)

include layout

section

variable (isRoot : roots root)
include isRoot

theorem Layout.root_slot (inner : depth ≤ 3) (inside : path < pathWidth (depth + 1))
    (found : self.tables.tableAt PageTableEntry.frame 512 root depth (path / 512) = some table)
    {other : Nat} (isOther : roots other) (same : other = table) : path % 512 < 256 := by
  have atTop : self.tables.tableAt PageTableEntry.frame 512 other 0 0 = some table := by
    rw [Tables.tableAt, same]
  have distinct := layout.forest.distinct isRoot isOther inner (Nat.zero_le 3)
    (layout.forest.parent_lt inside) (by decide) found atTop
  rw [distinct.2.1] at inside
  have below : path < 256 := inside
  omega

theorem ensureTable_conserves {below : Nat} {flags : PageFlags}
    (inner : depth < 3) (inside : path < pathWidth (depth + 1))
    (found : self.tables.tableAt PageTableEntry.frame 512 root depth (path / 512) = some table)
    (ensured : self.ensureTable table (path % 512) flags = some (next, below)) :
    Conserves self next roots := by
  have tableIs : self.IsTable roots table :=
    ⟨root, depth, path / 512, isRoot, le_of_lt inner, layout.forest.parent_lt inside, found⟩
  rcases ensureTable_some ensured with ⟨rfl, _⟩ | ⟨absent, taken, result, rfl⟩
  · exact Conserves.refl _ roots
  rcases allocFrame_some layout result with ⟨grows, inUse, wasFree, sameTables⟩
  have isFree := allocFrame_isFree layout.valid result
  rw [← sameTables] at found absent
  have isTable := grows.layout.forest.isTable_hang isRoot inner inside found absent
    inUse.notTable (show PageTableEntry.frame ⟨below, { flags with writable := true }⟩ =
      below from rfl)
  refine ⟨?_, ?_, ?_, ?_⟩
  · intro other free
    by_cases same : other = below
    · exact .inr ((isTable other).mpr (.inr same))
    · exact .inl ((isFree other).mpr ⟨free, same⟩)
  · intro other otherTable
    rw [IsTable, ← sameTables] at otherTable
    exact (isTable other).mpr (.inl otherTable)
  · intro other otherTaken notTable
    have notSame : other ≠ table := fun same => notTable (same ▸ tableIs)
    have notFresh : other ≠ below := fun same => otherTaken (same ▸ wasFree)
    exact (Tables.Forest.hang_other notSame notFresh _ _).trans (by rw [sameTables])
  · intro other slot isOther above
    have notFresh : other ≠ below := fun same => inUse.notTable
      ⟨other, 0, 0, isOther, Nat.zero_le 3, by decide, by rw [Tables.tableAt, same]⟩
    by_cases same : other = table
    · have lower := layout.root_slot isRoot (le_of_lt inner) inside
        (sameTables ▸ found) isOther same
      subst same
      change taken.tables.hang other (path % 512) below _ other slot = _
      rw [Tables.Forest.hang_table notFresh, if_neg (by omega), sameTables]
    · change taken.tables.hang table (path % 512) below _ other slot = _
      rw [Tables.Forest.hang_other same notFresh, sameTables]

theorem write_conserves {number : Nat} (user : number < userPages)
    (found : self.tables.tableAt PageTableEntry.frame 512 root 3 (number / 512) = some table)
    (entry : Option PageTableEntry) :
    Conserves self { self with tables := self.tables.write table (number % 512) entry }
      roots := by
  have inside : number < pathWidth (3 + 1) := pathWidth_four ▸ user
  have parentInside := layout.forest.parent_lt inside
  refine ⟨fun _ free => .inl free, ?_, ?_, ?_⟩
  · intro frame isTable
    rcases isTable with ⟨other, depth, path, isOther, below, pathInside, reached⟩
    refine ⟨other, depth, path, isOther, below, pathInside, ?_⟩
    rw [← reached]
    exact layout.forest.tableAt_write isRoot parentInside found entry isOther below pathInside
  · intro other _ notTable
    have notSame : other ≠ table := fun same => notTable
      (same ▸ ⟨root, 3, number / 512, isRoot, le_rfl, parentInside, found⟩)
    exact Tables.write_other notSame _ _
  · intro other slot isOther above
    by_cases same : other = table
    · have lower := layout.root_slot isRoot le_rfl inside found isOther same
      subst same
      change self.tables.write other (number % 512) entry other slot = _
      rw [Tables.write_same, if_neg (by omega)]
    · exact congrFun (Tables.write_other same _ _) slot

theorem mapPage_conserves {virt frame : Nat} {flags : PageFlags}
    (user : pageNumber virt < userPages)
    (mapped : self.mapPage root virt frame flags = some next) :
    Conserves self next roots := by
  rcases @mapPage_walk _ _ _ _ _ _ _ _ (Conserves self · roots) layout isRoot user mapped
    (Conserves.refl self roots) (fun grows kept inner inside found ensured =>
      kept.trans grows (ensureTable_conserves grows.layout isRoot inner inside found ensured)) with
    ⟨third, table, grows, kept, found, rfl⟩
  exact kept.trans grows (write_conserves grows.layout isRoot user found _)

theorem unmapPage_conserves {virt : Nat} (user : pageNumber virt < userPages) :
    Conserves self (self.unmapPage root virt) roots := by
  rw [unmapPage, getEntry_eq]
  cases found : self.tables.tableAt PageTableEntry.frame 512 root 3 (pageNumber virt / 512) with
  | none => exact Conserves.refl self roots
  | some table => exact write_conserves layout isRoot user found none

end

end Tables

end Qunix.Arch.MemoryState
