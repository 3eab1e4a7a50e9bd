import Mathlib.Data.List.Basic
import Qunix.Foundation.Reachability

/-! # Offsets of open files

A descriptor holds its own copy of the offset and of the inode, and `dup`, `dup2`, `fcntl` and
`fork` copy descriptors. Nothing but the offset at the time of the open depends on `O_APPEND`.
-/

namespace Qunix.Vfs

open Foundation Function List

/-- A descriptor of a regular file in the table of a process. The source has no `opened`, which
names the open that the descriptor comes from; `size` is that of the inode when it was looked up. -/
structure FileDescriptor where
  pid : Nat
  fd : Nat
  opened : Nat
  ino : Nat
  size : Nat
  offset : Nat
  append : Bool
deriving DecidableEq

/-- The sizes of the files, the lengths of the data that a write to each of them starts from, and
the entries of all tables. A write to FAT32 starts from the whole chain of clusters and stores its
length as the size; the other file systems start from the size. -/
structure Files where
  sizes : Nat → Nat
  chains : Nat → Nat
  entries : List FileDescriptor

namespace Files

def setSize (self : Files) (ino size chain : Nat) : Files :=
  { self with
    sizes := Function.update self.sizes ino size
    chains := Function.update self.chains ino chain }

def insert (self : Files) (entry : FileDescriptor) : Files :=
  { self with entries := entry :: self.entries }

def closeFd (self : Files) (pid fd : Nat) : Files :=
  { self with entries := self.entries.filter fun entry => !(entry.pid == pid && entry.fd == fd) }

def move (self : Files) (entry : FileDescriptor) (offset : Nat) : Files :=
  { self with entries := { entry with offset := offset } :: self.entries.erase entry }

/-- A `u64` at a distance. -/
def relative (base : Nat) (distance : Int) : Nat := ((base + distance) % 18446744073709551616).toNat

def lseek (entry : FileDescriptor) (distance : Int) : (whence : Nat) → Option Nat
  | 0 => some (relative 0 distance)
  | 1 => some (relative entry.offset distance)
  | 2 => some (relative entry.size distance)
  | _ => none

/-- The descriptor that `open` returns. A file that it creates has the size 0. -/
def openFile (self : Files) (pid fd opened ino : Nat) (append : Bool) : FileDescriptor :=
  ⟨pid, fd, opened, ino, self.sizes ino, if append then self.sizes ino else 0, append⟩

/-- The size that a write stores. -/
def written (self : Files) (entry : FileDescriptor) (count : Nat) : Nat :=
  max (self.chains entry.ino) (entry.offset + count)

inductive Call
  | opening (ino : Nat) (append trunc : Bool)
  | copy (entry : FileDescriptor)
  | fork (pid child : Nat)
  | close (pid fd : Nat)
  | read (entry : FileDescriptor) (count : Nat)
  | write (entry : FileDescriptor) (count : Nat)
  | lseek (entry : FileDescriptor) (distance : Int) (whence : Nat)
  | truncate (ino size : Nat)

/-- The steps, for any numbers that `alloc_fd` may choose and any chain that a file has after a
change of its size; `dup2` first closes its target. A read ends at the size of the file or, on
FAT32, at the one that the descriptor remembers. -/
inductive Runs (self : Files) : Call → Files → Prop
  | opening {pid fd opened ino chain : Nat} {append trunc : Bool} :
      (∀ entry ∈ self.entries, entry.opened ≠ opened) →
      Runs self (.opening ino append trunc)
        ((if trunc then self.setSize ino 0 chain else self).insert
          (self.openFile pid fd opened ino append))
  | copy {entry : FileDescriptor} {new : Nat} : entry ∈ self.entries → entry.fd ≠ new →
      Runs self (.copy entry) ((self.closeFd entry.pid new).insert { entry with fd := new })
  | fork {pid child : Nat} :
      Runs self (.fork pid child) { self with
        entries := (self.entries.filter (·.pid == pid)).map ({ · with pid := child }) ++
          self.entries }
  | close {pid fd : Nat} : Runs self (.close pid fd) (self.closeFd pid fd)
  | read {entry : FileDescriptor} {count : Nat} : entry ∈ self.entries →
      count ≤ max (self.sizes entry.ino) entry.size - entry.offset →
      Runs self (.read entry count) (self.move entry (entry.offset + count))
  | write {entry : FileDescriptor} {count chain : Nat} : entry ∈ self.entries → 0 < count →
      Runs self (.write entry count) ((self.setSize entry.ino (self.written entry count)
        chain).move entry (entry.offset + count))
  | lseek {entry : FileDescriptor} {whence target : Nat} {distance : Int} :
      entry ∈ self.entries → lseek entry distance whence = some target →
      Runs self (.lseek entry distance whence) (self.move entry target)
  | truncate {ino size chain : Nat} : Runs self (.truncate ino size) (self.setSize ino size chain)

/-- Steps from files that nobody has open. -/
def calls (Allowed : Files → Call → Prop) : TransitionSystem Files Call where
  Initial self := self.entries = []
  Step self call next := Runs self call next ∧ Allowed self call

/-! ## Entries after a step -/

variable {self next : Files} {entry other : FileDescriptor} {offset : Nat} {call : Call}

/-- The steps that move no descriptor and open no file. -/
def Call.Copies : Call → Prop
  | .opening .. | .read .. | .write .. | .lseek .. => False
  | _ => True

theorem Runs.copies (runs : Runs self call next) (copies : call.Copies) :
    ∀ entry ∈ next.entries, ∃ old ∈ self.entries,
      ∃ pid fd, entry = { old with pid := pid, fd := fd } := by
  have same : ∀ old ∈ self.entries, ∃ old' ∈ self.entries,
      ∃ pid fd, old = { old' with pid := pid, fd := fd } :=
    fun old member => ⟨old, member, old.pid, old.fd, rfl⟩
  intro entry member
  cases runs with
  | copy found differs =>
    rcases mem_cons.mp member with rfl | old
    · exact ⟨_, found, _, _, rfl⟩
    · exact same entry (mem_of_mem_filter old)
  | fork =>
    rcases mem_append.mp member with new | old
    · rcases mem_map.mp new with ⟨old, isOld, rfl⟩
      exact ⟨old, mem_of_mem_filter isOld, _, _, rfl⟩
    · exact same entry old
  | close => exact same entry (mem_of_mem_filter member)
  | truncate => exact same entry member
  | _ => cases copies

theorem mem_move : other ∈ (self.move entry offset).entries ↔
    other = { entry with offset := offset } ∨ other ∈ self.entries.erase entry :=
  mem_cons

/-! ## One offset for one open -/

def Shared (self : Files) : Prop :=
  ∀ left ∈ self.entries, ∀ right ∈ self.entries, left.opened = right.opened →
    left.offset = right.offset

/-- No other entry comes from the same open. -/
def Sole (self : Files) (entry : FileDescriptor) : Prop :=
  ∀ other ∈ self.entries.erase entry, other.opened ≠ entry.opened

/-- A descriptor is moved only if it is the only one of its open. -/
def MovesSole (self : Files) : Call → Prop
  | .read entry count => count = 0 ∨ self.Sole entry
  | .write entry _ => self.Sole entry
  | .lseek entry distance whence => lseek entry distance whence = some entry.offset ∨
      self.Sole entry
  | _ => True

section

variable (shared : self.Shared)
include shared

theorem Shared.move_iff (found : entry ∈ self.entries) :
    (self.move entry offset).Shared ↔ offset = entry.offset ∨ self.Sole entry := by
  constructor
  · intro moved
    by_contra neither
    rw [not_or] at neither
    apply neither.2
    intro other member same
    have atNew := moved _ (mem_move.mpr (.inl rfl)) other (mem_move.mpr (.inr member)) same.symm
    have atOld := shared other (mem_of_mem_erase member) entry found same
    exact neither.1 (atNew.trans atOld)
  · intro allowed
    have apart : ∀ other ∈ self.entries.erase entry, other.opened = entry.opened →
        other.offset = offset := by
      intro other member same
      rcases allowed with still | sole
      · exact (shared other (mem_of_mem_erase member) entry found same).trans still.symm
      · exact absurd same (sole other member)
    intro left isLeft right isRight same
    rcases mem_move.mp isLeft with rfl | leftOld
    · rcases mem_move.mp isRight with rfl | rightOld
      · rfl
      · exact (apart right rightOld same.symm).symm
    · rcases mem_move.mp isRight with rfl | rightOld
      · exact apart left leftOld same
      · exact shared left (mem_of_mem_erase leftOld) right (mem_of_mem_erase rightOld)
          same

theorem Shared.copies (copies : ∀ entry ∈ next.entries, ∃ old ∈ self.entries,
    ∃ pid fd, entry = { old with pid := pid, fd := fd }) : next.Shared := by
  intro left isLeft right isRight
  rcases copies left isLeft with ⟨oldLeft, wasLeft, _, _, rfl⟩
  rcases copies right isRight with ⟨oldRight, wasRight, _, _, rfl⟩
  exact shared oldLeft wasLeft oldRight wasRight

theorem Shared.insert
    (fresh : ∀ old ∈ self.entries, old.opened ≠ entry.opened) : (self.insert entry).Shared := by
  intro left isLeft right isRight same
  rcases mem_cons.mp isLeft with rfl | leftOld
  · rcases mem_cons.mp isRight with rfl | rightOld
    · rfl
    · exact absurd same.symm (fresh right rightOld)
  · rcases mem_cons.mp isRight with rfl | rightOld
    · exact absurd same (fresh left leftOld)
    · exact shared left leftOld right rightOld same

theorem Shared.step_iff (runs : Runs self call next) :
    next.Shared ↔ MovesSole self call := by
  have copied : call.Copies → next.Shared := fun copies => shared.copies (runs.copies copies)
  cases runs with
  | opening fresh =>
    refine iff_of_true ?_ trivial
    split
    · exact @Shared.insert (self.setSize _ 0 _) _ shared fresh
    · exact shared.insert fresh
  | copy | fork | close | truncate => exact iff_of_true (copied trivial) trivial
  | read found _ =>
    refine (shared.move_iff found).trans (or_congr_left ?_)
    omega
  | lseek found target =>
    refine (shared.move_iff found).trans (or_congr_left ?_)
    rw [target, Option.some.injEq]
  | write found more => exact (shared.move_iff found).trans (or_iff_right (by omega))

end

/-- One offset for one open, in every run that moves only descriptors without copies; after such a
run a step keeps this exactly if it does the same. -/
theorem offsets_shared (reachable : (calls MovesSole).Reachable self) :
    self.Shared ∧ ∀ call next, Runs self call next → (next.Shared ↔ MovesSole self call) := by
  have shared : self.Shared := by
    apply reachable.invariant
    · intro state initial
      have nobody : state.entries = [] := initial
      simp [Shared, nobody]
    · intro state call next shared step
      exact (Shared.step_iff shared step.1).mpr step.2
  exact ⟨shared, fun _ _ runs => shared.step_iff runs⟩

/-- No file is open and all of them have one byte. -/
def oneByte : Files := ⟨fun _ => 1, fun _ => 1, []⟩

theorem oneByte_reachable (Allowed : Files → Call → Prop) : (calls Allowed).Reachable oneByte :=
  .initial rfl

/-- A file is opened and its descriptor copied, then another one is opened and read. -/
theorem offsets_shared_copied : ∃ files : Files, (calls MovesSole).Reachable files ∧
    files.entries = [⟨1, 5, 1, 8, 1, 1, false⟩, ⟨1, 4, 0, 7, 1, 0, false⟩,
      ⟨1, 3, 0, 7, 1, 0, false⟩] ∧ files.Shared := by
  have opened := (oneByte_reachable MovesSole).step
    ⟨@Runs.opening _ 1 3 0 7 1 false false (by decide), trivial⟩
  have copied := opened.step
    ⟨@Runs.copy _ ⟨1, 3, 0, 7, 1, 0, false⟩ 4 (mem_singleton.mpr rfl) (by decide), trivial⟩
  have second := copied.step ⟨@Runs.opening _ 1 5 1 8 1 false false (by decide), trivial⟩
  have sole : ∀ other ∈ [(⟨1, 4, 0, 7, 1, 0, false⟩ : FileDescriptor), ⟨1, 3, 0, 7, 1, 0, false⟩],
      other.opened ≠ 1 := by
    decide
  have moved := second.step
    ⟨@Runs.read _ ⟨1, 5, 1, 8, 1, 0, false⟩ 1 mem_cons_self (Nat.le_refl 1), .inr sole⟩
  exact ⟨_, moved, rfl, (offsets_shared moved).1⟩

/-- After `open`, `dup` and a read of one byte the two descriptors are at 1 and 0. -/
theorem offsets_apart : ∃ files, (calls fun _ _ => True).Reachable files ∧ ¬files.Shared := by
  have opened := (oneByte_reachable fun _ _ => True).step
    ⟨@Runs.opening _ 1 3 0 7 1 false false (by decide), trivial⟩
  have copied := opened.step
    ⟨@Runs.copy _ ⟨1, 3, 0, 7, 1, 0, false⟩ 4 (mem_singleton.mpr rfl) (by decide), trivial⟩
  have moved := copied.step
    ⟨@Runs.read _ ⟨1, 3, 0, 7, 1, 0, false⟩ 1 (by decide) (Nat.le_refl 1), trivial⟩
  refine ⟨_, moved, ?_⟩
  intro shared
  have same := shared ⟨1, 3, 0, 7, 1, 1, false⟩ (by decide) ⟨1, 4, 0, 7, 1, 0, false⟩ (by decide)
    rfl
  cases same

/-! ## Appending -/

def NoAppend (entries : List FileDescriptor) (ino : Nat) : Prop :=
  ∀ entry ∈ entries, entry.ino = ino → entry.append = false

/-- The size of a file changes only while no other descriptor appends to it, a descriptor that
appends stays at the end and writes past the chain, and `SEEK_END` finds the size that the inode
had at the open. -/
def Undisturbed (self : Files) : Call → Prop
  | .opening ino append trunc => trunc = true → self.sizes ino = 0 ∨
      (append = false ∧ NoAppend self.entries ino)
  | .write entry count =>
    (entry.append = true → self.chains entry.ino ≤ entry.offset + count) ∧
      (self.written entry count = self.sizes entry.ino ∨
        NoAppend (self.entries.erase entry) entry.ino)
  | .lseek entry distance whence =>
    (entry.append = true → lseek entry distance whence = some (self.sizes entry.ino)) ∧
      (whence = 2 → entry.size = self.sizes entry.ino)
  | .truncate ino size => size = self.sizes ino ∨ NoAppend self.entries ino
  | _ => True

/-- A write through a descriptor that appends goes to the end of the file. -/
def AtEnd (sizes : Nat → Nat) (entry : FileDescriptor) : Prop :=
  entry.append = true → entry.offset = sizes entry.ino

/-- `SEEK_END` is relative to the current size. -/
def SeeksEnd (self : Files) : Call → Prop
  | .lseek entry distance 2 => lseek entry distance 2 =
      some (relative (self.sizes entry.ino) distance)
  | _ => True

/-- With the size that a descriptor which appends remembers, since a read may go up to it. -/
def Settled (sizes : Nat → Nat) (entry : FileDescriptor) : Prop :=
  entry.append = true → entry.offset = sizes entry.ino ∧ entry.size ≤ sizes entry.ino

theorem settled_update {sizes : Nat → Nat} {ino size : Nat} (settled : Settled sizes entry)
    (allowed : size = sizes ino ∨ (entry.ino = ino → entry.append = false)) :
    Settled (Function.update sizes ino size) entry := by
  intro appends
  by_cases same : entry.ino = ino
  · rcases allowed with still | silent
    · rw [still, update_eq_self]
      exact settled appends
    · rw [silent same] at appends
      cases appends
  · rw [update_of_ne same]
    exact settled appends

theorem settled_step (settled : ∀ entry ∈ self.entries, Settled self.sizes entry)
    (step : (calls Undisturbed).Step self call next) :
    ∀ entry ∈ next.entries, Settled next.sizes entry := by
  rcases step with ⟨runs, allowed⟩
  have copied : call.Copies → next.sizes = self.sizes → ∀ entry ∈ next.entries,
      Settled next.sizes entry := by
    intro copies same entry member
    rcases runs.copies copies entry member with ⟨old, was, _, _, rfl⟩
    rw [same]
    exact settled old was
  cases runs with
  | copy | fork | close => exact copied trivial rfl
  | truncate => exact fun entry member =>
    settled_update (settled entry member) (allowed.imp_right fun silent => silent entry member)
  | @opening pid fd opened ino chain append trunc fresh =>
    have new : Settled self.sizes (self.openFile pid fd opened ino append) :=
      fun appends => ⟨if_pos appends, Nat.le_refl _⟩
    intro entry member
    cases trunc with
    | false =>
      rcases mem_cons.mp member with rfl | old
      · exact new
      · exact settled entry old
    | true =>
      rcases mem_cons.mp member with rfl | old
      · exact settled_update new ((allowed rfl).imp Eq.symm fun silent _ => silent.1)
      · exact settled_update (settled entry old)
          ((allowed rfl).imp Eq.symm fun silent => silent.2 entry old)
  | @read target count found few =>
    intro entry member
    rcases mem_move.mp member with rfl | old
    · intro appends
      have here := settled target found appends
      have nothing : count = 0 := by
        omega
      subst nothing
      exact here
    · exact settled entry (mem_of_mem_erase old)
  | @write target count chain found more =>
    intro entry member
    rcases mem_move.mp member with rfl | old
    · intro appends
      have here := settled target found appends
      have grown : self.written target count = target.offset + count :=
        Nat.max_eq_right (allowed.1 appends)
      have size := (update_self target.ino (self.written target count) self.sizes).trans grown
      have remembered : target.size ≤ target.offset + count := by
        omega
      exact ⟨size.symm, Nat.le_trans remembered (Nat.le_of_eq size.symm)⟩
    · exact settled_update (settled entry (mem_of_mem_erase old))
        (allowed.2.imp_right fun silent => silent entry old)
  | lseek found isTarget =>
    intro entry member
    rcases mem_move.mp member with rfl | old
    · exact fun appends => ⟨Option.some.inj (isTarget.symm.trans (allowed.1 appends)),
        (settled _ found appends).2⟩
    · exact settled entry (mem_of_mem_erase old)

/-- In every undisturbed run each descriptor that appends is at the current end of its file, so that
its next write goes there, and `SEEK_END` is right. -/
theorem appends_atEnd (reachable : (calls Undisturbed).Reachable self) :
    (∀ entry ∈ self.entries, AtEnd self.sizes entry) ∧
      ∀ call, Undisturbed self call → SeeksEnd self call := by
  constructor
  · have settled : ∀ entry ∈ self.entries, Settled self.sizes entry := by
      apply reachable.invariant
      · intro state initial
        have nobody : state.entries = [] := initial
        simp [nobody]
      · intro state call next settled step
        exact settled_step settled step
    exact fun entry member appends => (settled entry member appends).1
  · intro call allowed
    cases call with
    | lseek entry distance whence =>
      by_cases fromEnd : whence = 2
      · subst fromEnd
        simp only [SeeksEnd, lseek, allowed.2 rfl]
      · simp only [SeeksEnd]
        split
        next same => cases same; exact absurd rfl fromEnd
        next => trivial
    | _ => trivial

/-- One byte is appended to a file of one byte, whose descriptor has been copied and closed. -/
theorem appends_atEnd_written : ∃ files : Files, (calls Undisturbed).Reachable files ∧
    files.entries = [⟨1, 4, 0, 7, 1, 2, true⟩] ∧ files.sizes 7 = 2 ∧
      ∀ entry ∈ files.entries, AtEnd files.sizes entry := by
  have opened := (oneByte_reachable Undisturbed).step
    ⟨@Runs.opening _ 1 3 0 7 1 true false (by decide), nofun⟩
  have copied := opened.step
    ⟨@Runs.copy _ ⟨1, 3, 0, 7, 1, 1, true⟩ 4 (mem_singleton.mpr rfl) (by decide), trivial⟩
  have closed := copied.step ⟨@Runs.close _ 1 3, trivial⟩
  have alone : NoAppend [] 7 := nofun
  have written := closed.step ⟨@Runs.write _ ⟨1, 4, 0, 7, 1, 1, true⟩ 1 2 mem_cons_self (by decide),
    fun _ => by decide, .inr alone⟩
  exact ⟨_, written, rfl, rfl, (appends_atEnd written).1⟩

/-- Two descriptors append to a file of one byte. After a write of one byte through the first the
second is not at the end, and `SEEK_END` through the first goes to 1 instead of 2. -/
theorem appends_inside : ∃ files : Files, (calls fun _ _ => True).Reachable files ∧
    (∃ entry ∈ files.entries, ¬AtEnd files.sizes entry) ∧
      ∃ entry ∈ files.entries, ¬SeeksEnd files (.lseek entry 0 2) := by
  have first := (oneByte_reachable fun _ _ => True).step
    ⟨@Runs.opening _ 1 3 0 7 1 true false (by decide), trivial⟩
  have second := first.step ⟨@Runs.opening _ 1 4 1 7 1 true false (by decide), trivial⟩
  have written := second.step
    ⟨@Runs.write _ ⟨1, 3, 0, 7, 1, 1, true⟩ 1 2 (by decide) (by decide), trivial⟩
  refine ⟨_, written, ⟨⟨1, 4, 1, 7, 1, 1, true⟩, by decide, ?_⟩,
    ⟨⟨1, 3, 0, 7, 1, 2, true⟩, by decide, ?_⟩⟩
  · exact fun atEnd => absurd (atEnd rfl) (by decide)
  · intro seeks
    have same : some (relative 1 0) = some (relative 2 0) := seeks
    exact absurd same (by decide)

end Files

end Qunix.Vfs
