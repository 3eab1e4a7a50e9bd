import Qunix.Memory.Vmm.Isolation

/-! # `mprotect` and `mremap` after a fork

`mremap` fills only frames of its own. `mprotect` writes the requested flags into
every present page of its range and does not ask who else maps the frame.
-/

namespace Qunix.Memory.Vmm

open Foundation Arch MemoryState AddressSpace Option

variable {addr len : Nat} {prot : Prot}

namespace AddressSpace

variable {allocator : FrameAllocator} {memory next : MemoryState allocator}
variable {space nextSpace : AddressSpace} {roots : Nat → Prop} {root : Nat}

/-! ## `mprotect` -/

/-- The touched pages of the root that are present have new flags. -/
structure Reflags (before next : MemoryState allocator) (roots : Nat → Prop) (root : Nat)
    (touched : Nat → Prop) (flags : PageFlags) : Prop where
  layout : next.Layout roots
  inside : ∀ {number}, number < userPages → touched number →
    next.page root number = (before.page root number).map fun entry => ⟨entry.frame, flags⟩
  outside : ∀ {other number}, roots other → number < userPages →
    ¬(other = root ∧ touched number) → next.page other number = before.page other number

theorem Reflags.frame {touched : Nat → Prop} {flags : PageFlags} {number : Nat}
    (reflags : Reflags memory next roots root touched flags) (isRoot : roots root)
    (user : number < userPages) :
    (next.page root number).map PageTableEntry.frame =
      (memory.page root number).map PageTableEntry.frame := by
  by_cases isTouched : touched number
  · rw [reflags.inside user isTouched, map_map]
    rfl
  · rw [reflags.outside isRoot user fun both => isTouched both.2]

theorem Reflags.step {before : MemoryState allocator} {touched : Nat → Prop} {flags : PageFlags}
    {virt : Nat} (isRoot : roots root) (user : pageNumber virt < userPages)
    (reflags : Reflags before memory roots root touched flags)
    (stepped : (match memory.translate root virt with
      | none => some memory
      | some frame => memory.mapPage root virt frame flags) = some next) :
    Reflags before next roots root (fun number => touched number ∨ pageNumber virt = number)
      flags ∧ next.refcounts = memory.refcounts := by
  have sameFrame := reflags.frame isRoot user
  rw [translate_eq] at stepped
  cases present : memory.page root (pageNumber virt) with
  | none =>
    rw [present] at stepped sameFrame
    cases stepped
    have absent := Option.map_eq_none_iff.mp sameFrame.symm
    refine ⟨⟨reflags.layout, ?_, fun isOther otherUser outside =>
      reflags.outside isOther otherUser fun both => outside ⟨both.1, .inl both.2⟩⟩, rfl⟩
    intro number numberUser isTouched
    rcases isTouched with isTouched | same
    · exact reflags.inside numberUser isTouched
    · rw [← same, present, absent]
      rfl
  | some entry =>
    rw [present] at stepped sameFrame
    have inUse := reflags.layout.pageUsed isRoot user present
    have remaps := mapPage_spec reflags.layout isRoot user inUse stepped
    refine ⟨⟨remaps.layout, ?_, ?_⟩, remaps.refcounts⟩
    · intro number numberUser isTouched
      rw [remaps.page isRoot numberUser]
      by_cases same : number = pageNumber virt
      · rw [if_pos ⟨rfl, same⟩, same]
        rcases map_eq_some_iff.mp sameFrame.symm with ⟨old, wasPresent, oldFrame⟩
        rw [wasPresent, map_some, oldFrame]
      · rw [if_neg fun both => same both.2]
        rcases isTouched with isTouched | isLast
        · exact reflags.inside numberUser isTouched
        · exact absurd isLast.symm same
    · intro other number isOther numberUser outside
      rw [remaps.page isOther numberUser,
        if_neg fun both => outside ⟨both.1, .inr both.2.symm⟩]
      exact reflags.outside isOther numberUser fun both => outside ⟨both.1, .inl both.2⟩

variable {count first : Nat} {flags : PageFlags}

theorem protectPages_spec (layout : memory.Layout roots) (isRoot : roots root) :
    ∀ {count next}, (∀ index, index < count → pageNumber (pageAddress addr index) < userPages) →
      protectPages flags memory root addr count = some next →
      Reflags memory next roots root (Touched addr count) flags ∧
        next.refcounts = memory.refcounts := by
  intro count
  induction count with
  | zero =>
    intro next _ stepped
    cases stepped
    exact ⟨⟨layout, fun _ touched => absurd touched not_touched_zero, fun _ _ _ => rfl⟩, rfl⟩
  | succ count induction =>
    intro next user stepped
    simp only [protectPages, bind_eq_bind, bind_eq_some_iff] at stepped
    rcases stepped with ⟨reached, before, last⟩
    have earlier := induction (fun index below => user index (Nat.lt_succ_of_lt below)) before
    have later := earlier.1.step isRoot (user count (Nat.lt_succ_self count)) last
    have regroup : (fun number => Touched addr count number ∨
        pageNumber (pageAddress addr count) = number) = Touched addr (count + 1) := by
      funext number
      rw [touched_succ]
    rw [← regroup]
    exact ⟨later.1, later.2.trans earlier.2⟩

theorem mprotect_spec (layout : memory.Layout roots) (isRoot : roots space.pml4)
    (user : ∀ index, index < pageCount len → pageNumber (pageAddress addr index) < userPages)
    (called : space.mprotect memory addr len prot = some (nextSpace, next)) :
    nextSpace.pml4 = space.pml4 ∧
      Reflags memory next roots space.pml4 (Touched addr (pageCount len)) (protToFlags prot) := by
  simp only [mprotect, bind_eq_bind, bind_eq_some_iff, Option.some.injEq, Prod.mk.injEq] at called
  rcases called with ⟨reached, changed, sameSpace, sameMemory⟩
  rw [← sameSpace, ← sameMemory]
  exact ⟨rfl, (protectPages_spec layout isRoot user changed).1⟩

/-! ## `mremap` -/

section

variable (sound : memory.Sound roots)
include sound

theorem cutPages_refreshes (isRoot : roots space.pml4) (inside : first + count * 4096 ≤ userTop) :
    Refreshes memory (space.cutPages memory first count).2 roots space.pml4 := by
  rw [cutPages_memory]
  exact (forPages_releasePage sound isRoot fun index => pageNumber_user inside).refreshes isRoot

theorem Placement.refreshes {pages : Nat} (isRoot : roots space.pml4)
    (inside : addr + pages * 4096 ≤ userTop)
    (placement : Placement space memory pages addr nextSpace next) :
    Refreshes memory next roots space.pml4 := by
  cases placement with
  | fixed => exact cutPages_refreshes sound isRoot inside
  | hinted | bumped => exact .refl sound

theorem Blocked.refreshes (isRoot : roots space.pml4) (inside : first + count * 4096 ≤ userTop)
    (blocked : Blocked space memory first count prot next) :
    Refreshes memory next roots space.pml4 := by
  cases blocked with
  | occupied => exact .refl sound
  | starved _ undone => exact mapRange_refreshes sound isRoot inside undone

omit sound in
theorem forPages_keepPage (count : Nat) :
    forPages keepPage memory root addr count = memory := by
  induction count with
  | zero => rfl
  | succ count induction => exact induction

/-- A move that fails leaves the pages it has mapped. -/
theorem mapFresh_keepPage {content : MemoryState allocator → Nat → Nat → UInt8} {ok : Bool}
    (isRoot : roots root) (inside : addr + count * 4096 ≤ userTop)
    (mapped : mapFresh keepPage content root addr flags 0 count memory = some (ok, next)) :
    Refreshes memory next roots root := by
  have user : ∀ position, position < 0 + count →
      pageNumber (pageAddress addr position) < userPages := by
    intro position below
    rw [zero_add] at below
    exact pageNumber_user inside below
  rcases mapFresh_spec isRoot count 0 memory user (.refl sound) mapped with
    ⟨_, populates⟩ | ⟨_, position, reached, _, populates, kept⟩
  · exact populates.refreshes isRoot
  · rw [kept, forPages_keepPage]
    exact populates.refreshes isRoot

end

variable {oldAddr oldLen newLen flags newAddr : Nat}

theorem mremap_refreshes {answer : Option Nat} (sound : memory.Sound roots)
    (isRoot : roots space.pml4) (within : space.RemapWithin oldAddr oldLen newLen flags newAddr)
    (called : space.mremap memory oldAddr oldLen newLen flags newAddr =
      some (answer, nextSpace, next)) :
    nextSpace.pml4 = space.pml4 ∧ Refreshes memory next roots space.pml4 := by
  have oldRange := within.old
  have grown := within.grown
  have effect := mremap_effect within called
  refine ⟨effect.sameRoot, ?_⟩
  cases effect with
  | refused => exact .refl sound
  | removed => exact cutPages_refreshes sound isRoot oldRange
  | shrunk _ _ isCut =>
    subst isCut
    exact cutPages_refreshes sound isRoot (by omega)
  | extended longer _ populated =>
    have grown := grown longer
    exact mapRange_refreshes sound isRoot (by omega) populated
  | stuck longer blocked =>
    have grown := grown longer
    exact blocked.refreshes sound isRoot (by omega)
  | stranded longer blocked movable placement undone =>
    have grown := grown longer
    have inside := within.moved longer movable
    have blocking := blocked.refreshes sound isRoot (by omega)
    have placing := blocking.trans (placement.refreshes blocking.sound isRoot inside)
    exact placing.trans (mapFresh_keepPage placing.sound isRoot inside undone)
  | moved longer blocked movable placement _ populated isCut =>
    have grown := grown longer
    have inside := within.moved longer movable
    have blocking := blocked.refreshes sound isRoot (by omega)
    have placing := blocking.trans (placement.refreshes blocking.sound isRoot inside)
    have filling := placing.trans (mapFresh_keepPage placing.sound isRoot inside populated)
    have cutting := cutPages_refreshes filling.sound (placement.sameRoot.symm ▸ isRoot) oldRange
    rw [placement.sameRoot] at cutting
    subst isCut
    exact filling.trans cutting

end AddressSpace

/-! ## What the other processes notice -/

inductive ProtectCall
  | mprotect (addr len : Nat) (prot : Prot)
  | mremap (oldAddr oldLen newLen flags newAddr : Nat)

namespace Machine

variable {allocator : FrameAllocator} {machine after : Machine allocator} {pid : Nat}
variable {space : AddressSpace}

def protect (self : Machine allocator) (pid : Nat) : ProtectCall → Option (Machine allocator)
  | .mprotect addr len prot => self.withSpace pid fun space =>
    space.mprotect self.memory addr len prot
  | .mremap oldAddr oldLen newLen flags newAddr => self.withSpace pid fun space =>
    (space.mremap self.memory oldAddr oldLen newLen flags newAddr).map Prod.snd

/-- The call stays in the user half. `mremap` also relies on the sharing counts,
when it gives back the frames of the old range. -/
def ProtectFits (machine : Machine allocator) (space : AddressSpace) : ProtectCall → Prop
  | .mprotect addr len _ => ∀ index, index < pageCount len →
      pageNumber (pageAddress addr index) < userPages
  | .mremap oldAddr oldLen newLen flags newAddr =>
    machine.FewSharers ∧ space.RemapWithin oldAddr oldLen newLen flags newAddr

/-- Another process has the frame in its private memory. -/
def HeldPrivately (machine : Machine allocator) (pid frame : Nat) : Prop :=
  ∃ other number space entry, machine.Mapped other number space entry ∧ other ≠ pid ∧
    entry.frame = frame ∧ space.Private number

/-- The process can write to no frame of another's private memory, and nobody
reads a store of it there. -/
structure Shielded (machine : Machine allocator) (pid : Nat) : Prop where
  guarded : ∀ {number space entry}, machine.Mapped pid number space entry →
    machine.HeldPrivately pid entry.frame → entry.flags.writable = false
  unseen : ∀ {addr byte next}, machine.exec (.store pid addr byte) = some next →
    ∀ {reader space address}, reader ≠ pid → machine.spaces reader = some space →
      address < userTop → space.Private (address / 4096) →
      next.load reader address = machine.load reader address

/-- A page made writable must not map a frame of another's private memory. -/
def Harmless (machine : Machine allocator) (pid : Nat) : ProtectCall → Prop
  | .mprotect addr len prot => prot.write = true →
      ∀ {number space entry}, Touched addr (pageCount len) number →
        machine.Mapped pid number space entry → ¬machine.HeldPrivately pid entry.frame
  | .mremap .. => True

theorem shielded_of_guarded
    (guarded : ∀ {number space entry}, machine.Mapped pid number space entry →
      machine.HeldPrivately pid entry.frame → entry.flags.writable = false) :
    machine.Shielded pid := by
  refine ⟨guarded, ?_⟩
  intro addr byte next taken reader space address different owner user isPrivate
  apply load_store taken owner user
  intro writerNumber writerSpace writerEntry entry writes reads shared
  exact guarded writes ⟨reader, address / 4096, space, entry, reads, different, shared, isPrivate⟩

theorem Safe.heldPrivately (safe : machine.Safe) {number : Nat} {entry : PageTableEntry}
    (mapped : machine.Mapped pid number space entry)
    (held : machine.HeldPrivately pid entry.frame) : entry.flags.writable = false := by
  rcases held with ⟨other, otherNumber, otherSpace, otherEntry, otherMapped, different, shared,
    isPrivate⟩
  exact (safe.isolated.guarded otherMapped mapped different shared isPrivate).2

section Caller

variable {next : MemoryState allocator} {nextSpace : AddressSpace}
variable (safe : machine.Safe) (found : machine.spaces pid = some space)
variable (elsewhere : ∀ {other number}, machine.roots other → number < userPages →
  other ≠ space.pml4 → next.page other number = machine.memory.page other number)

include safe found elsewhere

theorem heldPrivately_replace (frame : Nat) :
    (machine.replace pid nextSpace next).HeldPrivately pid frame ↔
      machine.HeldPrivately pid frame := by
  constructor
  · intro held
    rcases held with ⟨other, number, otherSpace, entry, ⟨owner, user, present⟩, different, rest⟩
    rw [replace_spaces, if_neg different] at owner
    rw [replace, elsewhere (isRoot owner) user
      fun same => different (safe.distinct owner found same)] at present
    exact ⟨other, number, otherSpace, entry, ⟨owner, user, present⟩, different, rest⟩
  · intro held
    rcases held with ⟨other, number, otherSpace, entry, ⟨owner, user, present⟩, different, rest⟩
    refine ⟨other, number, otherSpace, entry, ⟨?_, user, ?_⟩, different, rest⟩
    · rw [replace_spaces, if_neg different]
      exact owner
    · rw [replace, elsewhere (isRoot owner) user
        fun same => different (safe.distinct owner found same)]
      exact present

end Caller

/-- The caller's pages after `mprotect`: old ones, or touched ones with the flags
asked for. -/
theorem Safe.mprotect_iff {next : MemoryState allocator} {nextSpace : AddressSpace}
    (safe : machine.Safe) (found : machine.spaces pid = some space)
    (root : nextSpace.pml4 = space.pml4)
    (reflags : Reflags machine.memory next machine.roots space.pml4 (Touched addr (pageCount len))
      (protToFlags prot)) :
    (machine.replace pid nextSpace next).Shielded pid ↔
      machine.Harmless pid (.mprotect addr len prot) := by
  have held := @heldPrivately_replace _ machine pid space next nextSpace safe found
    fun isOther user different => reflags.outside isOther user fun both => different both.1
  have owner : (machine.replace pid nextSpace next).spaces pid = some nextSpace := by
    rw [replace_spaces, if_pos rfl]
  constructor
  · intro shielded write number otherSpace entry touched mapped isHeld
    rcases mapped with ⟨isSpace, user, present⟩
    rw [found, Option.some.injEq] at isSpace
    subst isSpace
    have presentNow : next.page nextSpace.pml4 number = some ⟨entry.frame, protToFlags prot⟩ := by
      rw [root, reflags.inside user touched, present]
      rfl
    have protection := shielded.guarded ⟨owner, user, presentNow⟩ ((held entry.frame).mpr isHeld)
    rw [protToFlags, write] at protection
    cases protection
  · intro harmless
    apply shielded_of_guarded
    intro number otherSpace entry mapped isHeld
    rcases mapped with ⟨isSpace, user, present⟩
    rw [owner, Option.some.injEq] at isSpace
    rw [← isSpace, root] at present
    rw [held] at isHeld
    by_cases touched : Touched addr (pageCount len) number
    · have changed : next.page space.pml4 number = some entry := present
      rw [reflags.inside user touched] at changed
      rcases map_eq_some_iff.mp changed with ⟨old, wasPresent, rfl⟩
      cases write : prot.write with
      | false => exact write
      | true =>
        have unheld := harmless write touched ⟨found, user, wasPresent⟩
        exact absurd isHeld unheld
    · have kept : next.page space.pml4 number = some entry := present
      rw [reflags.outside (isRoot found) user fun both => touched both.2] at kept
      exact safe.heldPrivately ⟨found, user, kept⟩ isHeld

/-- The caller's pages after `mremap`: old ones, or ones nobody else maps. -/
theorem Safe.refreshes_shielded {next : MemoryState allocator} {nextSpace : AddressSpace}
    (safe : machine.Safe) (found : machine.spaces pid = some space)
    (root : nextSpace.pml4 = space.pml4)
    (refreshes : Refreshes machine.memory next machine.roots space.pml4) :
    (machine.replace pid nextSpace next).Shielded pid := by
  have sameRoots : (machine.replace pid nextSpace next).roots = machine.roots :=
    replace_roots found root
  have owner : (machine.replace pid nextSpace next).spaces pid = some nextSpace := by
    rw [replace_spaces, if_pos rfl]
  apply shielded_of_guarded
  intro number otherSpace entry mapped isHeld
  rcases mapped with ⟨isSpace, user, present⟩
  rw [owner, Option.some.injEq] at isSpace
  rw [← isSpace, root] at present
  rcases refreshes.here user present with kept | sole
  · rw [heldPrivately_replace safe found refreshes.elsewhere] at isHeld
    exact safe.heldPrivately ⟨found, user, kept⟩ isHeld
  rcases isHeld with ⟨other, otherNumber, heldSpace, heldEntry, ⟨isOther, heldUser, heldPresent⟩,
    different, shared, _⟩
  have isHolder : next.Maps machine.roots entry.frame (heldSpace.pml4, otherNumber) := by
    refine ⟨?_, heldUser, heldEntry, heldPresent, shared⟩
    rw [← sameRoots]
    exact isRoot isOther
  rw [replace_spaces, if_neg different] at isOther
  exact absurd (safe.distinct isOther found (Prod.mk.inj (sole _ isHolder)).1) different

/-- In every state that confined calls can reach, `mprotect` and `mremap` expose
nothing exactly if they are harmless. `mremap` always is. -/
theorem shielded_iff_harmless {call : ProtectCall}
    (reachable : confinedSystem.Reachable machine) (found : machine.spaces pid = some space)
    (fits : machine.ProtectFits space call) (taken : machine.protect pid call = some after) :
    after.Shielded pid ↔ machine.Harmless pid call := by
  have safe := confined_safe reachable
  cases call with
  | mprotect addr len prot =>
    rcases withSpace_some taken with ⟨caller, nextSpace, memory, isCaller, called, same⟩
    rw [found, Option.some.injEq] at isCaller
    rw [← isCaller] at called
    rcases mprotect_spec safe.layout (isRoot found) fits called with ⟨root, reflags⟩
    rw [same]
    exact safe.mprotect_iff found root reflags
  | mremap oldAddr oldLen newLen flags newAddr =>
    rcases fits with ⟨few, inside⟩
    rcases withSpace_map taken with
      ⟨caller, ⟨answer, nextSpace, memory⟩, isCaller, called, same⟩
    rw [found, Option.some.injEq] at isCaller
    subst isCaller
    rcases mremap_refreshes (safe.sound few) (isRoot found) inside called with
      ⟨root, refreshes⟩
    rw [same]
    exact iff_of_true (safe.refreshes_shielded found root refreshes) trivial

theorem user_one_page : ∀ index, index < pageCount 4096 →
    pageNumber (pageAddress initialBrkStart index) < userPages := by
  have count : pageCount 4096 = 1 := by decide
  intro index below
  rw [Nat.lt_one_iff.mp below]
  decide

/-- Taking write permission away from the shared page exposes nothing. -/
theorem shielded_iff_harmless_read_only :
    ∃ after, forkedPage.protect 2 (.mprotect initialBrkStart 4096 ⟨true, false, false⟩) =
      some after ∧ after.Shielded 2 := by
  have succeeds : (forkedPage.protect 2
      (.mprotect initialBrkStart 4096 ⟨true, false, false⟩)).isSome = true := by decide +kernel
  rcases isSome_iff_exists.mp succeeds with ⟨after, taken⟩
  rcases withSpace_some taken with ⟨space, _, _, found, _⟩
  have harmless : forkedPage.Harmless 2
      (.mprotect initialBrkStart 4096 ⟨true, false, false⟩) := by
    intro write
    cases write
  have fits : forkedPage.ProtectFits space
      (.mprotect initialBrkStart 4096 ⟨true, false, false⟩) := user_one_page
  exact ⟨after, taken, (shielded_iff_harmless forkedPage_reachable found fits taken).mpr harmless⟩

theorem not_shielded {reader addr address : Nat} {byte : UInt8}
    (taken : (machine.exec (.store pid addr byte)).isSome = true) (different : reader ≠ pid)
    (user : address < userTop)
    (isPrivate : (machine.spaces reader).any (fun space => space.Private (address / 4096)) = true)
    (seen : (machine.exec (.store pid addr byte)).bind (fun next => next.load reader address) ≠
      machine.load reader address) : ¬machine.Shielded pid := by
  intro shielded
  rcases isSome_iff_exists.mp taken with ⟨next, stored⟩
  rw [any_eq_true] at isPrivate
  rcases isPrivate with ⟨space, owner, covered⟩
  apply seen
  rw [stored]
  exact shielded.unseen stored different owner user (of_decide_eq_true covered)

/-- The child asks for its heap page to be writable, which it is in its region,
and then writes into the parent's heap. -/
theorem mprotect_exposes :
    ∃ after, forkedPage.protect 2 (.mprotect initialBrkStart 4096 ⟨true, true, false⟩) =
        some after ∧
      after.entry 1 initialBrkStart = some ⟨270, ⟨false, true, true, true⟩⟩ ∧
      after.entry 2 initialBrkStart = some ⟨270, ⟨true, true, false, true⟩⟩ ∧
      after.load 1 initialBrkStart = some 0 ∧
      (after.exec (.store 2 initialBrkStart 7)).bind (fun next => next.load 1 initialBrkStart) =
        some 7 ∧
      ¬after.Shielded 2 := by
  let after := (forkedPage.protect 2 (.mprotect initialBrkStart 4096 ⟨true, true, false⟩)).get
    (by decide +kernel)
  have readBefore : after.load 1 initialBrkStart = some 0 := by decide +kernel
  have readAfter : (after.exec (.store 2 initialBrkStart 7)).bind
      (fun next => next.load 1 initialBrkStart) = some 7 := by decide +kernel
  refine ⟨after, (some_get _).symm, by decide +kernel, by decide +kernel, readBefore, readAfter, ?_⟩
  apply @not_shielded _ after 2 1 initialBrkStart initialBrkStart 7
  · decide +kernel
  · decide
  · decide
  · decide +kernel
  · rw [readBefore, readAfter]
    decide

end Machine

end Qunix.Memory.Vmm
