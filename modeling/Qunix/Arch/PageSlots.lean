import Qunix.Arch.Paging

/-! # Pages by the slot of their entry

What the page mapper does to all the pages of one address space, both halves of it. Two
pages have the same entry exactly when the walk ends in the same slot. All that is
asked of the tables is that no table of the last level is used higher up.
-/

namespace Qunix.Arch

/-- What the processor allows below an entry: each level can take rights away. -/
def PageFlags.through (above below : PageFlags) : PageFlags where
  writable := above.writable && below.writable
  user := above.user && below.user
  cow := below.cow
  noExecute := above.noExecute || below.noExecute

namespace MemoryState

open Foundation Memory

variable {allocator : FrameAllocator} {memory reached next : MemoryState allocator}
variable {root : Nat} (self : MemoryState allocator)

def slot (pml4 number : Nat) : Option (Nat × Nat) :=
  self.tables.slotAt PageTableEntry.frame 512 pml4 3 number

def Layered (pml4 : Nat) : Prop :=
  self.tables.Layered PageTableEntry.frame 512 pml4 3

/-- The flags of the three entries above a page, as far as they let anything through. -/
def upper (pml4 number : Nat) : Option PageFlags := do
  let e4 ← self.tables.entryAt PageTableEntry.frame 512 pml4 0 (number / 512 / 512 / 512)
  let e3 ← self.tables.entryAt PageTableEntry.frame 512 pml4 1 (number / 512 / 512)
  let e2 ← self.tables.entryAt PageTableEntry.frame 512 pml4 2 (number / 512)
  some ((e4.flags.through e3.flags).through e2.flags)

/-- What the processor lets a process do at an address, over all four levels. -/
def rights (pml4 virt : Nat) : Option PageFlags := do
  let e4 ← self.tables pml4 (tableIndex 3 virt)
  let e3 ← self.tables e4.frame (tableIndex 2 virt)
  let e2 ← self.tables e3.frame (tableIndex 1 virt)
  let e1 ← self.tables e2.frame (tableIndex 0 virt)
  some (((e4.flags.through e3.flags).through e2.flags).through e1.flags)

theorem rights_eq (pml4 virt : Nat) :
    self.rights pml4 virt = (self.upper pml4 (pageNumber virt)).bind fun above =>
      (self.page pml4 (pageNumber virt)).map fun entry => above.through entry.flags := by
  simp only [rights, upper, page, Tables.entryAt, Tables.tableAt, tableIndex_zero,
    tableIndex_one, tableIndex_two, tableIndex_three, Option.bind_some, Option.bind_eq_bind]
  cases self.tables pml4 (pageNumber virt / 512 / 512 / 512 % 512) with
  | none => rfl
  | some e4 =>
    cases second : self.tables e4.frame (pageNumber virt / 512 / 512 % 512) with
    | none => simp [second]
    | some e3 =>
      cases third : self.tables e3.frame (pageNumber virt / 512 % 512) with
      | none => simp [second, third]
      | some e2 =>
        cases fourth : self.tables e2.frame (pageNumber virt % 512) <;>
          simp [second, third, fourth]

theorem getEntry_slot (pml4 virt : Nat) :
    self.getEntry pml4 virt = self.slot pml4 (pageNumber virt) :=
  getEntry_eq self pml4 virt

theorem page_slot (pml4 number : Nat) :
    self.page pml4 number =
      (self.slot pml4 number).bind fun place => self.tables place.1 place.2 :=
  Tables.entryAt_eq_slot 3 number

/-- The pages of which `touched` holds have their entries changed. -/
structure Rewrites (before next : MemoryState allocator) (root : Nat) (touched : Nat → Prop)
    (change : Option PageTableEntry → Option PageTableEntry) : Prop where
  layered : next.Layered root
  slot : ∀ number, next.slot root number = before.slot root number
  upper : ∀ number, next.upper root number = before.upper root number
  inside : ∀ {number}, touched number → next.page root number = change (before.page root number)
  outside : ∀ {number}, ¬touched number → next.page root number = before.page root number

/-- The page has its entry in the slot of one of the first `count` numbers. -/
def Visited (memory : MemoryState allocator) (root : Nat) (numbers : Nat → Nat)
    (count number : Nat) : Prop :=
  ∃ index, index < count ∧ memory.slot root number = memory.slot root (numbers index)

namespace Rewrites

variable {numbers : Nat → Nat} {count : Nat}
variable {change : Option PageTableEntry → Option PageTableEntry}

theorem none (layered : memory.Layered root) :
    Rewrites memory memory root (memory.Visited root numbers 0) change where
  layered := layered
  slot := fun _ => rfl
  upper := fun _ => rfl
  inside := by
    rintro number ⟨index, below, _⟩
    exact absurd below (Nat.not_lt_zero index)
  outside := fun _ => rfl

theorem snoc (again : ∀ entry, change (change entry) = change entry)
    (earlier : Rewrites memory reached root (memory.Visited root numbers count) change)
    (step : Rewrites reached next root
      (fun number => reached.slot root number = reached.slot root (numbers count)) change) :
    Rewrites memory next root (memory.Visited root numbers (count + 1)) change where
  layered := step.layered
  slot := fun number => (step.slot number).trans (earlier.slot number)
  upper := fun number => (step.upper number).trans (earlier.upper number)
  inside := by
    rintro number ⟨index, below, same⟩
    by_cases isLast : reached.slot root number = reached.slot root (numbers count)
    · rw [step.inside isLast]
      by_cases before : memory.Visited root numbers count number
      · rw [earlier.inside before, again]
      · rw [earlier.outside before]
    · rw [step.outside isLast]
      apply earlier.inside
      refine ⟨index, lt_of_le_of_ne (Nat.le_of_lt_succ below) ?_, same⟩
      intro isCount
      rw [earlier.slot, earlier.slot, same, isCount] at isLast
      exact isLast rfl
  outside := by
    intro number unvisited
    have notLast : ¬reached.slot root number = reached.slot root (numbers count) := by
      intro same
      rw [earlier.slot, earlier.slot] at same
      exact unvisited ⟨count, Nat.lt_succ_self count, same⟩
    rw [step.outside notLast]
    apply earlier.outside
    rintro ⟨index, below, same⟩
    exact unvisited ⟨index, Nat.lt_succ_of_lt below, same⟩

theorem congr {touched : Nat → Prop} (rewrites : Rewrites memory reached root touched change)
    (tables : next.tables = reached.tables) : Rewrites memory next root touched change where
  layered := by
    rw [Layered, tables]
    exact rewrites.layered
  slot := by
    intro number
    rw [MemoryState.slot, tables]
    exact rewrites.slot number
  upper := by
    intro number
    rw [MemoryState.upper, tables]
    exact rewrites.upper number
  inside := by
    intro number isTouched
    rw [page, tables]
    exact rewrites.inside isTouched
  outside := by
    intro number untouched
    rw [page, tables]
    exact rewrites.outside untouched

end Rewrites

/-! ## The page mapper -/

theorem write_rewrites {number table position : Nat} {entry : Option PageTableEntry}
    {change : Option PageTableEntry → Option PageTableEntry} (layered : memory.Layered root)
    (found : memory.slot root number = some (table, position))
    (same : entry = change (memory.page root number)) :
    Rewrites memory { memory with tables := memory.tables.write table position entry } root
      (fun other => memory.slot root other = memory.slot root number) change := by
  have isTable := Tables.slotAt_some found
  refine ⟨Tables.Layered.write layered isTable position entry,
    Tables.Layered.slotAt_write layered isTable position entry, ?_, ?_, ?_⟩
  · intro other
    have above := @Tables.Layered.entryAt_write_above _ _ _ _ _ _ layered _ _ isTable position
      entry
    rw [upper, upper, above (by decide), above (by decide), above (by decide)]
  · intro other here
    have samePage : memory.page root other = memory.page root number := by
      rw [page_slot, page_slot, here]
    rw [page, Tables.Layered.entryAt_write layered isTable position entry, samePage, ← same]
    exact if_pos (here.trans found)
  · intro other elsewhere
    rw [page, Tables.Layered.entryAt_write layered isTable position entry]
    exact if_neg fun here => elsewhere (here.trans found.symm)

theorem rewrites_absent {number : Nat}
    {change : Option PageTableEntry → Option PageTableEntry} (layered : memory.Layered root)
    (absent : memory.page root number = none) (keeps : change none = none) :
    Rewrites memory memory root
      (fun other => memory.slot root other = memory.slot root number) change := by
  refine ⟨layered, fun _ => rfl, fun _ => rfl, ?_, fun _ => rfl⟩
  intro other same
  have samePage : memory.page root other = memory.page root number := by
    rw [page_slot, page_slot, same]
  rw [samePage, absent, keeps]

theorem unmapPage_rewrites {virt : Nat} (layered : memory.Layered root) :
    Rewrites memory (memory.unmapPage root virt) root
      (fun number => memory.slot root number = memory.slot root (pageNumber virt))
      (fun _ => none) := by
  rw [unmapPage, getEntry_slot]
  cases found : memory.slot root (pageNumber virt) with
  | none =>
    have absent : memory.page root (pageNumber virt) = none := by
      rw [page_slot, found]
      rfl
    have rewrites := @rewrites_absent _ memory root _ (fun _ => none) layered absent rfl
    rw [found] at rewrites
    exact rewrites
  | some place =>
    have rewrites := @write_rewrites _ memory root _ _ _ none (fun _ => none) layered found rfl
    rw [found] at rewrites
    exact rewrites

/-- Where the tables exist, `map_page` only writes the entry. -/
theorem mapPage_found {virt table position frame : Nat} {flags : PageFlags}
    (found : memory.getEntry root virt = some (table, position)) :
    memory.mapPage root virt frame flags =
      some { memory with tables := memory.tables.write table position (some ⟨frame, flags⟩) } := by
  simp only [getEntry, Option.bind_eq_bind, Option.bind_eq_some_iff, Option.some.injEq,
    Prod.mk.injEq] at found
  rcases found with ⟨e4, has4, e3, has3, e2, has2, isTable, isPosition⟩
  simp only [mapPage, ensureTable, has4, has3, has2, Option.bind_eq_bind, Option.bind_some]
  rw [isTable, isPosition]

def reflag (flags : PageFlags) (entry : Option PageTableEntry) : Option PageTableEntry :=
  entry.map fun old => ⟨old.frame, flags⟩

theorem reflag_reflag (flags : PageFlags) (entry : Option PageTableEntry) :
    reflag flags (reflag flags entry) = reflag flags entry := by
  cases entry <;> rfl

theorem mapPage_rewrites {virt : Nat} {entry : PageTableEntry} (flags : PageFlags)
    (layered : memory.Layered root) (present : memory.page root (pageNumber virt) = some entry) :
    ∃ next, memory.mapPage root virt entry.frame flags = some next ∧
      Rewrites memory next root
        (fun number => memory.slot root number = memory.slot root (pageNumber virt))
        (reflag flags) := by
  have isPresent := present
  rw [page_slot] at isPresent
  rcases Option.bind_eq_some_iff.mp isPresent with ⟨⟨table, position⟩, found, _⟩
  refine ⟨_, mapPage_found ((getEntry_slot memory root virt).trans found), ?_⟩
  apply write_rewrites layered found
  rw [present]
  rfl

end MemoryState

end Qunix.Arch
