import Qunix.Foundation.Reachability
import Qunix.Fs.Tmpfs.Refinement

/-! # Histories of calls on a tmpfs file

Every history of calls and answers is one that a POSIX file could have, where a
write or a truncation may fail with `ENOMEM` and then has no effect.
-/

namespace Qunix.Fs.Tmpfs

open Foundation Arch Memory TmpFileData

inductive FileEvent
  | read (offset count : Nat) (bytes : List UInt8)
  | write (offset : Nat) (data : List UInt8) (answer : Answer Nat)
  | truncate (len : Nat) (answer : Answer Unit)
deriving DecidableEq

inductive FileCall
  | read (offset count : Nat)
  | write (offset : Nat) (data : List UInt8)
  | truncate (len : Nat)

structure FileHistory (allocator : FrameAllocator) where
  file : TmpFileData
  memory : MemoryState allocator
  events : List FileEvent

namespace FileHistory

variable {allocator : FrameAllocator} {history next : FileHistory allocator}

/-- There is no next state when the call panics. -/
def exec (history : FileHistory allocator) : FileCall → Option (FileHistory allocator)
  | .read offset count =>
    (history.file.read history.memory offset count).map fun bytes =>
      { history with events := .read offset count bytes :: history.events }
  | .write offset data =>
    (history.file.write history.memory offset data).map fun (answer, file, memory) =>
      ⟨file, memory, .write offset data answer :: history.events⟩
  | .truncate len =>
    (history.file.truncate history.memory len).map fun (answer, file, memory) =>
      ⟨file, memory, .truncate len answer :: history.events⟩

/-- The rest of the kernel does as it likes with the frames that are not the
file's, and takes and frees frames. -/
structure Elsewhere (history next : FileHistory allocator) : Prop where
  file : next.file = history.file
  events : next.events = history.events
  valid : allocator.Valid next.memory.frames
  taken : ∀ frame ∈ history.file.pages, ¬allocator.IsFree next.memory.frames frame
  bytes : ∀ frame ∈ history.file.pages, next.memory.bytes frame = history.memory.bytes frame

/-- The data of a write is a slice, which has at most `isize::MAX` bytes. -/
def Callable : FileCall → Prop
  | .write _ data => data.length < 2 ^ 63
  | _ => True

/-- A new file, with any state of the allocator and any contents of the frames. -/
structure Started (history : FileHistory allocator) : Prop where
  file : history.file = .new
  valid : allocator.Valid history.memory.frames
  events : history.events = []

def system (allocator : FrameAllocator) :
    TransitionSystem (FileHistory allocator) (Option FileCall) where
  Initial := Started
  Step history label next :=
    match label with
    | some call => Callable call ∧ history.exec call = some next
    | none => history.Elsewhere next

end FileHistory

/-! ## The POSIX file -/

/-- The bytes that the calls leave in a POSIX file. -/
def contents : List FileEvent → SparseArray UInt8 0
  | .write offset data (.ok _) :: earlier => (contents earlier).write offset data
  | .truncate len (.ok _) :: earlier => (contents earlier).truncate len
  | _ :: earlier => contents earlier
  | [] => .empty

/-- The answer is one that a POSIX file with these bytes may give. -/
def Permitted (spec : SparseArray UInt8 0) : FileEvent → Prop
  | .read offset count bytes => bytes = spec.read offset count
  | .write _ data (.ok count) => count = data.length
  | _ => True

def AllPermitted : List FileEvent → Prop
  | [] => True
  | event :: earlier => Permitted (contents earlier) event ∧ AllPermitted earlier

/-- The byte was not written since the file last ended before it. -/
def Unwritten (position : Nat) : List FileEvent → Prop
  | .write offset data (.ok _) :: earlier =>
    ¬(offset ≤ position ∧ position < offset + data.length) ∧ Unwritten position earlier
  | .truncate len (.ok _) :: earlier => len ≤ position ∨ Unwritten position earlier
  | _ :: earlier => Unwritten position earlier
  | [] => True

theorem contents_unwritten {position : Nat} (events : List FileEvent) :
    Unwritten position events → (contents events).item position = 0 := by
  fun_induction contents events with
  | case1 offset data count earlier induction =>
    intro unwritten
    exact (if_neg unwritten.1).trans (induction unwritten.2)
  | case2 len answer earlier induction =>
    intro unwritten
    change (if position < len then (contents earlier).item position else 0) = 0
    rcases unwritten with cut | before
    · exact if_neg (Nat.not_lt.mpr cut)
    · rw [induction before, ite_self]
  | case3 event earlier notWrite notTruncate induction =>
    intro unwritten
    apply induction
    cases event with
    | read => exact unwritten
    | write offset data answer =>
      cases answer with
      | ok count => exact absurd rfl (notWrite offset data count)
      | enomem => exact unwritten
    | truncate len answer =>
      cases answer with
      | ok value => exact absurd rfl (notTruncate len value)
      | enomem => exact unwritten
  | case4 => exact fun _ => rfl

namespace FileHistory

variable {allocator : FrameAllocator} {history next : FileHistory allocator}

/-- The file holds the bytes of the POSIX file, and answered as it does. -/
structure Conforms (history : FileHistory allocator) : Prop where
  refines : history.file.Refines history.memory (contents history.events)
  permitted : AllPermitted history.events

theorem Started.conforms (started : history.Started) : history.Conforms := by
  rcases history with ⟨file, memory, events⟩
  rcases started with ⟨isNew, valid, noEvents⟩
  subst isNew noEvents
  exact ⟨⟨⟨valid, List.forall_mem_nil _, List.forall_mem_nil _, List.nodup_nil⟩,
    Nat.zero_le _, rfl, fun _ => rfl⟩, trivial⟩

theorem Conforms.exec (conforms : history.Conforms) {call : FileCall} (callable : Callable call)
    (taken : history.exec call = some next) : next.Conforms := by
  rcases conforms with ⟨refines, permitted⟩
  cases call with
  | read offset count =>
    rw [FileHistory.exec, refines.read] at taken
    cases taken
    exact ⟨refines, rfl, permitted⟩
  | write offset data =>
    rw [FileHistory.exec, Option.map_eq_some_iff] at taken
    rcases taken with ⟨⟨answer, file, memory⟩, written, isNext⟩
    subst isNext
    rcases refines.write callable written with ⟨failed, same⟩ | ⟨done, changed⟩
    · rw [failed]
      exact ⟨same, trivial, permitted⟩
    · rw [done]
      exact ⟨changed, rfl, permitted⟩
  | truncate len =>
    rw [FileHistory.exec, Option.map_eq_some_iff] at taken
    rcases taken with ⟨⟨answer, file, memory⟩, truncated, isNext⟩
    subst isNext
    rcases refines.truncate truncated with ⟨failed, same⟩ | ⟨done, changed⟩
    · rw [failed]
      exact ⟨same, trivial, permitted⟩
    · rw [done]
      exact ⟨changed, trivial, permitted⟩

theorem Conforms.elsewhere (conforms : history.Conforms) (elsewhere : history.Elsewhere next) :
    next.Conforms := by
  rcases history with ⟨file, memory, events⟩
  rcases next with ⟨nextFile, nextMemory, nextEvents⟩
  rcases conforms with ⟨refines, permitted⟩
  rcases elsewhere with ⟨sameFile, sameEvents, valid, taken, bytes⟩
  subst sameFile sameEvents
  refine ⟨⟨⟨valid, taken, refines.bounds, refines.nodup⟩, refines.covered, refines.length, ?_⟩,
    permitted⟩
  intro position
  rw [← refines.item position]
  cases found : nextFile.pages[position / 4096]? with
  | none => rw [byteOf_none found, byteOf_none found]
  | some frame =>
    rw [byteOf_some found, byteOf_some found]
    rw [bytes frame (List.mem_of_getElem? found)]

theorem reachable_conforms (reachable : (system allocator).Reachable history) :
    history.Conforms := by
  apply reachable.invariant
  · intro history started
    exact started.conforms
  · intro history label next conforms step
    cases label with
    | none => exact conforms.elsewhere step
    | some call => exact conforms.exec step.1 step.2

/-- Rounding the new end of the file up to whole pages does not wrap. -/
def Roundable : FileCall → Prop
  | .read _ _ => True
  | .write offset data => offset + data.length + 4095 < Word.modulus
  | .truncate len => len + 4095 < Word.modulus

theorem Conforms.exec_returns (conforms : history.Conforms) {call : FileCall}
    (roundable : Roundable call) : ∃ next, history.exec call = some next := by
  cases call with
  | read offset count =>
    rw [FileHistory.exec, conforms.refines.read]
    exact ⟨_, rfl⟩
  | write offset data =>
    rcases conforms.refines.write_returns roundable with ⟨result, written⟩
    rw [FileHistory.exec, written]
    exact ⟨_, rfl⟩
  | truncate len =>
    rcases conforms.refines.truncate_returns roundable with ⟨result, truncated⟩
    rw [FileHistory.exec, truncated]
    exact ⟨_, rfl⟩

/-- Whatever the calls and wherever an allocation failed, every answer so far is
one of a POSIX file, a read of any part of the file returns its bytes, bytes that
were not written since the file was cut are zeros, and the next call returns. -/
theorem tmpfs_file_refines_posix (reachable : (system allocator).Reachable history) :
    AllPermitted history.events ∧
    (∀ offset count, history.file.read history.memory offset count =
      some ((contents history.events).read offset count)) ∧
    (∀ position, Unwritten position history.events →
      (contents history.events).item position = 0) ∧
    ∀ call, Roundable call → ∃ next, history.exec call = some next := by
  have conforms := reachable_conforms reachable
  refine ⟨conforms.permitted, ?_, ?_, ?_⟩
  · intro offset count
    exact conforms.refines.read offset count
  · intro position
    exact contents_unwritten history.events
  · intro call roundable
    exact conforms.exec_returns roundable

/-! ## A file that shrinks and grows -/

def sixteenFree : FileHistory Phys.allocator where
  file := .new
  memory :=
    { frames := Phys.allocator.freeRange Phys.emptyState 256 16
      cpu := 0
      tables := fun _ _ => none
      bytes := fun _ _ => 7
      refcounts := fun _ => 0 }
  events := []

theorem sixteenFree_started : sixteenFree.Started where
  file := rfl
  valid := (@FrameAllocator.freeRange_spec Phys.allocator _ 256 Phys.emptyState_valid (by decide)
    Phys.emptyState_taken 16 (by decide)).1
  events := rfl

def advance (history : FileHistory allocator) (call : FileCall) : FileHistory allocator :=
  (history.exec call).getD history

theorem reachable_advance (reachable : (system allocator).Reachable history) (call : FileCall)
    (callable : Callable call) (returns : (history.exec call).isSome = true) :
    (system allocator).Reachable (history.advance call) := by
  rcases Option.isSome_iff_exists.mp returns with ⟨next, taken⟩
  rw [advance, taken]
  exact @TransitionSystem.Reachable.step _ _ _ _ _ (some call) reachable ⟨callable, taken⟩

def shrunkAndGrown : FileHistory Phys.allocator :=
  ((sixteenFree.advance (.write 4100 [1, 2, 3, 4, 5])).advance (.truncate 4102)).advance
    (.truncate 4110)

theorem shrunkAndGrown_reachable : (system Phys.allocator).Reachable shrunkAndGrown := by
  have written := reachable_advance (.initial sixteenFree_started) (.write 4100 [1, 2, 3, 4, 5])
    (by rw [Callable]; decide) (by decide +kernel)
  have shrunk := reachable_advance written (.truncate 4102) trivial (by decide +kernel)
  exact reachable_advance shrunk (.truncate 4110) trivial (by decide +kernel)

theorem tmpfs_file_refines_posix_shrunkAndGrown :
    shrunkAndGrown.events = [.truncate 4110 (.ok ()), .truncate 4102 (.ok ()),
      .write 4100 [1, 2, 3, 4, 5] (.ok 5)] ∧
    shrunkAndGrown.file.read shrunkAndGrown.memory 4098 10 =
      some [0, 0, 1, 2, 0, 0, 0, 0, 0, 0] := by
  have events : shrunkAndGrown.events = [.truncate 4110 (.ok ()), .truncate 4102 (.ok ()),
      .write 4100 [1, 2, 3, 4, 5] (.ok 5)] := by decide +kernel
  refine ⟨events, ?_⟩
  rw [(tmpfs_file_refines_posix shrunkAndGrown_reachable).2.1, events]
  decide +kernel

end FileHistory

end Qunix.Fs.Tmpfs
