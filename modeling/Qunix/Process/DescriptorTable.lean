import Mathlib.Logic.Function.Basic
import Qunix.Foundation.Reachability

/-! # Descriptor tables

`alloc_fd`, `alloc_fd_at`, `get_fd` and `close_fd` of a process or of its thread group. The
search for an unused number starts at a hint and does not end if there is none.
-/

namespace Qunix

open Foundation Function

/-- The `fds` and `next_fd` of a process or a thread group. -/
structure FdTable (Descriptor : Type) where
  fds : Nat → Option Descriptor
  nextFd : Nat

namespace FdTable

def maxFds : Nat := 1024

variable {Descriptor : Type}

def empty : FdTable Descriptor := ⟨fun _ => none, 3⟩

/-- The hint after a number in use; it is a `u32`. -/
def advance (next : Nat) : Nat :=
  if maxFds ≤ (next + 1) % 4294967296 then 3 else (next + 1) % 4294967296

/-- The loop of the search, for at most `fuel` rounds. -/
def search (fds : Nat → Option Descriptor) : (fuel : Nat) → Nat → Option Nat
  | 0, _ => none
  | fuel + 1, next => if fds next = none then some next else search fds fuel (advance next)

/-- There is no answer if the search takes more rounds. -/
def allocFd (fuel : Nat) (self : FdTable Descriptor) (fd : Descriptor) :
    Option (Nat × FdTable Descriptor) :=
  (search self.fds fuel self.nextFd).map fun number =>
    (number, ⟨update self.fds number (some fd), (number + 1) % 4294967296⟩)

def closeFd (self : FdTable Descriptor) (number : Nat) : Bool × FdTable Descriptor :=
  ((self.fds number).isSome, { self with fds := update self.fds number none })

/-! ## The search -/

variable {fds : Nat → Option Descriptor} {fuel next number : Nat}

theorem advance_lt : advance next < maxFds := by
  rw [advance]
  split
  next => decide
  next small => omega

theorem advance_succ (inside : next + 1 < maxFds) : advance next = next + 1 := by
  have bound : maxFds = 1024 := rfl
  rw [advance, Nat.mod_eq_of_lt (by omega), if_neg (by omega)]

theorem advance_last : advance (maxFds - 1) = 3 := rfl

theorem search_unused (found : search fds fuel next = some number) : fds number = none := by
  induction fuel generalizing next with
  | zero => cases found
  | succ fuel induction =>
    rw [search] at found
    split at found
    next unused =>
      cases found
      exact unused
    next => exact induction found

theorem search_range (inside : next < maxFds) (found : search fds fuel next = some number) :
    number < maxFds ∧ (3 ≤ number ∨ next ≤ number) := by
  induction fuel generalizing next with
  | zero => cases found
  | succ fuel induction =>
    rw [search] at found
    split at found
    next =>
      cases found
      exact ⟨inside, .inr (Nat.le_refl _)⟩
    next =>
      rcases induction advance_lt found with ⟨small, high⟩
      refine ⟨small, ?_⟩
      by_cases last : next + 1 < maxFds
      · rw [advance_succ last] at high
        omega
      · have isLast : next = maxFds - 1 := by
          omega
        rw [isLast, advance_last] at high
        omega

/-- The search from this hint ends. -/
def Ends (fds : Nat → Option Descriptor) (next : Nat) : Prop :=
  ∃ fuel number, search fds fuel next = some number

theorem ends_of_unused (unused : fds next = none) : Ends fds next := by
  refine ⟨1, next, ?_⟩
  rw [search, if_pos unused]

theorem ends_of_advance (ends : Ends fds (advance next)) : Ends fds next := by
  rcases ends with ⟨fuel, number, found⟩
  by_cases here : fds next = none
  · exact ends_of_unused here
  · refine ⟨fuel + 1, number, ?_⟩
    rw [search, if_neg here, found]

theorem ends_up {goal : Nat} (above : next ≤ goal) (inside : goal < maxFds)
    (unused : fds goal = none) : Ends fds next := by
  rcases Nat.exists_eq_add_of_le above with ⟨count, rfl⟩
  induction count generalizing next with
  | zero => exact ends_of_unused unused
  | succ count induction =>
    have later : next + (count + 1) = next + 1 + count := by
      omega
    rw [later] at inside unused
    apply ends_of_advance
    rw [advance_succ (by omega)]
    exact induction (by omega) inside unused

/-- The search goes on at 3 behind the last number. -/
theorem ends_around (inside : next < maxFds) (again : Ends fds 3) : Ends fds next := by
  rcases Nat.exists_eq_add_of_le (Nat.succ_le_of_lt inside) with ⟨count, isCount⟩
  induction count generalizing next with
  | zero =>
    have isLast : next = maxFds - 1 := by
      omega
    apply ends_of_advance
    rw [isLast, advance_last]
    exact again
  | succ count induction =>
    apply ends_of_advance
    rw [advance_succ (by omega)]
    exact induction (by omega) (by omega)

/-- Where the search is after the hint has left the range of the numbers. -/
def start (self : FdTable Descriptor) : Nat :=
  if self.nextFd < maxFds then self.nextFd else advance self.nextFd

theorem start_lt (self : FdTable Descriptor) : self.start < maxFds := by
  rw [start]
  split
  next small => exact small
  next => exact advance_lt

/-- The hint is a number of the table or in use, and the search comes to an unused number. -/
def HasRoom (self : FdTable Descriptor) : Prop :=
  (self.nextFd < maxFds ∨ self.fds self.nextFd ≠ none) ∧
    ∃ number, number < maxFds ∧ self.fds number = none ∧ (3 ≤ number ∨ self.start ≤ number)

theorem HasRoom.ends {self : FdTable Descriptor} (room : self.HasRoom) :
    Ends self.fds self.nextFd := by
  rcases room with ⟨_, number, inside, unused, high⟩
  have fromStart : Ends self.fds self.start := by
    rcases high with high | high
    · exact ends_around self.start_lt (ends_up high inside unused)
    · exact ends_up high inside unused
  rw [start] at fromStart
  split at fromStart
  next => exact fromStart
  next => exact ends_of_advance fromStart

theorem search_found {self : FdTable Descriptor}
    (found : search self.fds fuel self.nextFd = some number) :
    (maxFds ≤ number ∧ ¬ self.HasRoom) ∨ (number < maxFds ∧ self.HasRoom) := by
  have unused := search_unused found
  by_cases small : self.nextFd < maxFds
  · rcases search_range small found with ⟨inside, high⟩
    refine .inr ⟨inside, .inl small, number, inside, unused, ?_⟩
    rw [start, if_pos small]
    exact high
  cases fuel with
  | zero => cases found
  | succ fuel =>
    by_cases here : self.fds self.nextFd = none
    · rw [search, if_pos here] at found
      cases found
      refine .inl ⟨by omega, ?_⟩
      intro room
      rcases room.1 with inside | used
      · exact small inside
      · exact used here
    · rw [search, if_neg here] at found
      rcases search_range advance_lt found with ⟨inside, high⟩
      refine .inr ⟨inside, .inr here, number, inside, unused, ?_⟩
      rw [start, if_neg small]
      exact high

/-! ## Allocation -/

variable {self after : FdTable Descriptor} {fd : Descriptor}

theorem allocFd_found (found : search self.fds fuel self.nextFd = some number) :
    self.allocFd fuel fd =
      some (number, ⟨update self.fds number (some fd), (number + 1) % 4294967296⟩) := by
  rw [allocFd, found]
  rfl

theorem allocFd_eq (allocated : self.allocFd fuel fd = some (number, after)) :
    search self.fds fuel self.nextFd = some number ∧
      after = ⟨update self.fds number (some fd), (number + 1) % 4294967296⟩ := by
  rw [allocFd, Option.map_eq_some_iff] at allocated
  rcases allocated with ⟨found, search, isFound⟩
  cases isFound
  exact ⟨search, rfl⟩

/-- The call returns, with a number that was unused and nothing else changed. -/
def AllocSound (self : FdTable Descriptor) (fd : Descriptor) : Prop :=
  (∃ fuel number after, self.allocFd fuel fd = some (number, after)) ∧
    ∀ fuel number after, self.allocFd fuel fd = some (number, after) →
      number < maxFds ∧ self.fds number = none ∧ after.fds number = some fd ∧
        ∀ other, other ≠ number → after.fds other = self.fds other

theorem allocSound_iff : self.AllocSound fd ↔ self.HasRoom := by
  constructor
  · intro sound
    rcases sound with ⟨⟨fuel, number, after, allocated⟩, every⟩
    have inside := (every fuel number after allocated).1
    rcases search_found (allocFd_eq allocated).1 with ⟨outside, _⟩ | ⟨_, room⟩
    · omega
    · exact room
  · intro room
    constructor
    · rcases room.ends with ⟨fuel, number, found⟩
      exact ⟨fuel, number, _, allocFd_found found⟩
    · intro fuel number after allocated
      rcases allocFd_eq allocated with ⟨found, rfl⟩
      refine ⟨?_, search_unused found, update_self .., ?_⟩
      · rcases search_found found with ⟨_, none⟩ | ⟨inside, _⟩
        · exact absurd room none
        · exact inside
      · intro other isOther
        exact update_of_ne isOther ..

/-! ## Runs -/

def Bounded (self : FdTable Descriptor) : Prop := ∀ number, maxFds ≤ number → self.fds number = none

inductive Call (Descriptor : Type)
  | alloc (fd : Descriptor)
  | close (number : Nat)

inductive Runs : FdTable Descriptor → Call Descriptor → FdTable Descriptor → Prop
  | alloc {self after : FdTable Descriptor} {fd : Descriptor} {fuel number : Nat} :
      self.allocFd fuel fd = some (number, after) → Runs self (.alloc fd) after
  | close {self : FdTable Descriptor} {number : Nat} :
      Runs self (.close number) (self.closeFd number).2

def calls (Allowed : FdTable Descriptor → Prop) :
    TransitionSystem (FdTable Descriptor) (Call Descriptor) where
  Initial := Bounded
  Step self call after := Runs self call after ∧ ∀ fd, call = .alloc fd → Allowed self

theorem Bounded.step {call : Call Descriptor} (bounded : self.Bounded)
    (step : (calls HasRoom).Step self call after) : after.Bounded := by
  rcases step with ⟨runs, allowed⟩
  intro other outside
  cases runs with
  | @close number =>
    by_cases same : other = number
    · cases same
      exact update_self ..
    · exact (update_of_ne same ..).trans (bounded other outside)
  | alloc allocated =>
    have room := allowed _ rfl
    rcases (allocSound_iff.mpr room).2 _ _ _ allocated with ⟨inside, _, _, kept⟩
    rw [kept other (by omega)]
    exact bounded other outside

theorem bounded_of_reachable (reachable : (calls HasRoom).Reachable self) : self.Bounded := by
  apply reachable.invariant
  · intro state initial
    exact initial
  · intro state call next bounded step
    exact Bounded.step bounded step

/-- An allocation is right exactly if there is room, and allocations with room keep every
number of the table below the limit. -/
theorem allocFd_law (table : FdTable Descriptor) (fd : Descriptor)
    {state : FdTable Descriptor} (reachable : (calls HasRoom).Reachable state) :
    (table.AllocSound fd ↔ table.HasRoom) ∧ state.Bounded :=
  ⟨allocSound_iff, bounded_of_reachable reachable⟩

/-- Two descriptors are allocated and the first one is closed. -/
theorem allocFd_law_closed : ∃ table : FdTable Unit, (calls HasRoom).Reachable table ∧
    table.fds 3 = none ∧ table.fds 4 = some () ∧ table.AllocSound () ∧ table.Bounded := by
  have start : (calls HasRoom).Reachable (empty : FdTable Unit) := .initial fun _ _ => rfl
  have first := start.step ⟨.alloc (@allocFd_found _ 1 3 empty () rfl),
    fun _ _ => ⟨.inl (by decide), 3, by decide, rfl, .inl (Nat.le_refl 3)⟩⟩
  have second := first.step ⟨.alloc (@allocFd_found _ 1 4 _ () rfl),
    fun _ _ => ⟨.inl (by decide), 4, by decide, rfl, .inl (by decide)⟩⟩
  have closed := second.step ⟨@Runs.close _ _ 3, nofun⟩
  have law (table : FdTable Unit) := allocFd_law table () closed
  exact ⟨_, closed, rfl, rfl,
    (law _).1.mpr ⟨.inl (by decide), 5, by decide, rfl, .inl (by decide)⟩, (law empty).2⟩

/-! ## Tables without room -/

theorem search_full (full : ∀ number, number < maxFds → fds number ≠ none)
    (inside : next < maxFds) : search fds fuel next = none := by
  induction fuel generalizing next with
  | zero => rfl
  | succ fuel induction =>
    rw [search, if_neg (full next inside)]
    exact induction advance_lt

theorem reachable_hint (fd : Descriptor) (hint : Nat) (low : 3 ≤ hint) (high : hint ≤ maxFds) :
    (calls fun _ => True).Reachable (⟨fun _ => none, hint⟩ : FdTable Descriptor) := by
  induction hint with
  | zero => omega
  | succ hint induction =>
    by_cases first : hint + 1 = 3
    · exact .initial fun _ _ => rfl
    have before := induction (by omega) (by omega)
    have small : (hint + 1) % 4294967296 = hint + 1 := by
      have limit : maxFds = 1024 := rfl
      omega
    have opened := before.step ⟨.alloc (@allocFd_found _ 1 hint _ fd rfl), fun _ _ => trivial⟩
    have closed := opened.step ⟨@Runs.close _ _ hint, fun _ _ => trivial⟩
    rw [closeFd, small, update_idem, update_eq_self] at closed
    exact closed

/-- A table with every number below the limit, as `dup2` makes it. -/
def fullTable : FdTable Unit := ⟨fun number => if number < maxFds then some () else none, 3⟩

theorem fullTable_used {number : Nat} (inside : number < maxFds) : fullTable.fds number ≠ none := by
  have used : fullTable.fds number = some () := if_pos inside
  rw [used]
  exact Option.some_ne_none ()

/-- Opening and closing one descriptor again and again ends with a number at the limit, and an
allocation in a full table does not return. -/
theorem allocFd_unbounded :
    (∃ table : FdTable Unit, (calls fun _ => True).Reachable table ∧ table.fds maxFds ≠ none) ∧
      ∀ fuel, fullTable.allocFd fuel () = none := by
  constructor
  · have atLimit := reachable_hint () maxFds (by decide) (Nat.le_refl _)
    have opened := atLimit.step
      ⟨.alloc (@allocFd_found _ 1 maxFds _ () rfl), fun _ _ => trivial⟩
    refine ⟨_, opened, ?_⟩
    have used : update (fun _ => none) maxFds (some ()) maxFds = some () :=
      update_self ..
    exact Option.ne_none_iff_exists'.mpr ⟨(), used⟩
  · intro fuel
    have ended : search fullTable.fds fuel fullTable.nextFd = none :=
      search_full (fun _ inside => fullTable_used inside) (by decide)
    rw [allocFd, ended, Option.map_none]

end FdTable

end Qunix
