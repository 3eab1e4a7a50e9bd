import Qunix.Fs.Tmpfs.TreeEffects

/-! # Entries and nodes

Every entry names a node and no node has two names, as long as no call is given the number
of a node that is still there. The numbers wrap after 64 bits.
-/

namespace Qunix.Fs.Tmpfs

open Foundation NamedGraph

namespace TmpState

open Word

variable {state fresh middle next : TmpState} {ino dir child : Nat} {name : Name} {call : TreeCall}

/-- Every entry names an existing node, and no node is named twice. -/
structure Sound (state : TmpState) : Prop where
  exist : ∀ dir name ino, state.entry dir name = some ino → state.Present ino
  unshared : NamedGraph.Unshared state.entry

/-- A call that makes a node gets a number without one. -/
def Numbered (state : TmpState) (call : TreeCall) : Prop :=
  ∀ place, call.enters = some place → state.nodes state.nextIno = none

theorem entry_new : new.entry dir name = none := by
  by_cases isRoot : dir = 1
  · subst isRoot
    rfl
  · have noNode : new.nodes dir = none := Function.update_of_ne isRoot _ fun _ => none
    rw [entry, noNode]
    rfl

theorem sound_new : new.Sound where
  exist := by
    intro dir name ino isEntry
    rw [entry_new] at isEntry
    cases isEntry
  unshared := by
    intro first second name other target isFirst
    rw [entry_new] at isFirst
    cases isFirst

/-! ## The effects one by one -/

theorem Made.entry (isMade : Made state fresh) (unused : state.nodes state.nextIno = none) :
    fresh.entry = state.entry := by
  rcases isMade with ⟨node, empty, _, rfl⟩
  funext dir name
  by_cases same : dir = state.nextIno
  · subst same
    have noEntry : state.entry state.nextIno name = none := by
      rw [TmpState.entry, unused]
      rfl
    have isNode : ({ state.setNode state.nextIno (some node) with
        nextIno := add state.nextIno 1 } : TmpState).nodes state.nextIno = some node :=
      setNode_same
    rw [entry_of_node isNode, empty, noEntry]
  · exact entry_congr (setNode_other same)

theorem Made.present (isMade : Made state fresh) :
    fresh.Present ino ↔ ino = state.nextIno ∨ state.Present ino := by
  rcases isMade with ⟨node, _, _, rfl⟩
  by_cases same : ino = state.nextIno
  · subst same
    exact ⟨fun _ => .inl rfl, fun _ => ⟨node, setNode_same⟩⟩
  have kept : ({ state.setNode state.nextIno (some node) with
      nextIno := add state.nextIno 1 } : TmpState).nodes ino = state.nodes ino :=
    setNode_other same
  rw [Present, kept]
  exact ⟨.inr, fun present => present.resolve_left same⟩

theorem Dropped.other (dropped : Dropped middle next child) (different : ino ≠ child) :
    next.nodes ino = middle.nodes ino := by
  rcases dropped with rfl | ⟨node, _, _, _, rfl⟩
  · exact setNode_other different
  · exact setNode_other different

theorem Dropped.entry (dropped : Dropped middle next child)
    (leaf : ∀ other, middle.entry child other = none) : next.entry = middle.entry := by
  funext dir name
  by_cases same : dir = child
  · subst same
    rw [leaf]
    rcases dropped with rfl | ⟨node, isNode, _, _, rfl⟩
    · rw [TmpState.entry, setNode_same]
      rfl
    · rw [entry_of_node setNode_same]
      exact (entry_of_node isNode).symm.trans (leaf name)
  · exact entry_congr (dropped.other same)

theorem Edited.leaf {target : Nat} (edited : Edited state middle dir name none)
    (leaf : ∀ other, state.entry target other = none) (other : Name) :
    middle.entry target other = none := by
  rw [edited.entry, NamedGraph.redirect]
  split
  · rfl
  · exact leaf other

section

variable (sound : state.Sound)
include sound

theorem Sound.erase (edited : Edited state next dir name none) :
    next.Sound where
  exist := by
    intro place other ino isEntry
    rw [edited.entry] at isEntry
    exact edited.present.mpr (sound.exist _ _ _ (of_remove isEntry))
  unshared := by
    rw [edited.entry]
    exact sound.unshared.remove

theorem Sound.insert (edited : Edited state next dir name (some child))
    (present : state.Present child)
    (unnamed : ∀ place other, state.entry place other ≠ some child) :
    next.Sound where
  exist := by
    intro place other ino isEntry
    rw [edited.entry] at isEntry
    rw [edited.present]
    rcases of_redirect isEntry with isChild | old
    · cases isChild
      exact present
    · exact sound.exist _ _ _ old
  unshared := by
    rw [edited.entry]
    exact sound.unshared.add unnamed

theorem Sound.made (isMade : Made state fresh)
    (unused : state.nodes state.nextIno = none) : fresh.Sound where
  exist := by
    intro place other ino isEntry
    rw [isMade.entry unused] at isEntry
    exact isMade.present.mpr (.inr (sound.exist _ _ _ isEntry))
  unshared := by
    rw [isMade.entry unused]
    exact sound.unshared

omit sound in
theorem Sound.drop (sound : middle.Sound) (dropped : Dropped middle next child)
    (leaf : ∀ other, middle.entry child other = none)
    (unnamed : ∀ place other, middle.entry place other ≠ some child) : next.Sound where
  exist := by
    intro place other ino isEntry
    rw [dropped.entry leaf] at isEntry
    have different : ino ≠ child := by
      rintro rfl
      exact unnamed place other isEntry
    rw [Present, dropped.other different]
    exact sound.exist _ _ _ isEntry
  unshared := by
    rw [dropped.entry leaf]
    exact sound.unshared

theorem Sound.unnamed_erase (isEntry : state.entry dir name = some child)
    (edited : Edited state middle dir name none) (place : Nat) (other : Name) :
    middle.entry place other ≠ some child := by
  rw [edited.entry]
  exact sound.unshared.unnamed isEntry

variable {result : Except TreeError Unit}

theorem Sound.effect
    (numbered : state.Numbered call) (effect : Effect state call result next) : next.Sound := by
  cases effect with
  | refused _ => exact sound
  | orphaned enters isMade _ => exact sound.made isMade (numbered _ enters)
  | entered enters isMade edited =>
    have unused := numbered _ enters
    refine (sound.made isMade unused).insert edited (isMade.present.mpr (.inl rfl)) ?_
    intro place other isEntry
    rw [isMade.entry unused] at isEntry
    rcases sound.exist _ _ _ isEntry with ⟨node, isNode⟩
    rw [unused] at isNode
    cases isNode
  | removed _ isEntry leaf edited dropped =>
    exact (sound.erase edited).drop dropped (edited.leaf leaf)
      (sound.unnamed_erase isEntry edited)
  | mislaid _ erased _ => exact sound.erase erased
  | moved isEntry erased inserted =>
    exact (sound.erase erased).insert inserted
      (erased.present.mpr (sound.exist _ _ _ isEntry)) (sound.unnamed_erase isEntry erased)

end

/-- In every run whose calls get numbers without a node, every entry names an existing node
and no node is named by more than one entry. -/
theorem reached_names_sound (reachable : (treeSystem Numbered).Reachable state) : state.Sound := by
  apply reachable.invariant
  · rintro state rfl
    exact sound_new
  · rintro state call next sound ⟨numbered, rfl⟩
    exact sound.effect numbered (perform_effect call)

theorem reached_names_sound_one :
    (treeSystem Numbered).Reachable (perform (.create ⟨0, 0, 0⟩ 1 [97] 0o644) new).2 ∧
      (perform (.create ⟨0, 0, 0⟩ 1 [97] 0o644) new).2.Sound := by
  have reachable :
      (treeSystem Numbered).Reachable (perform (.create ⟨0, 0, 0⟩ 1 [97] 0o644) new).2 :=
    .step (.initial rfl) ⟨fun _ _ => rfl, rfl⟩
  exact ⟨reachable, reached_names_sound reachable⟩

/-! ## Numbers that do not wrap -/

def Ascending (state : TmpState) : Prop := ∀ ino, state.Present ino → ino < state.nextIno

theorem Ascending.unused (ascending : state.Ascending) : state.nodes state.nextIno = none := by
  rcases isNode : state.nodes state.nextIno with _ | node
  · rfl
  · exact absurd (ascending _ ⟨node, isNode⟩) (lt_irrefl _)

theorem Dropped.present (dropped : Dropped middle next child) (present : next.Present ino) :
    middle.Present ino := by
  by_cases same : ino = child
  · subst same
    rcases dropped with rfl | ⟨node, isNode, _, _, rfl⟩
    · rcases present with ⟨node, isNode⟩
      rw [setNode_same] at isNode
      cases isNode
    · exact ⟨node, isNode⟩
  · rw [Present, ← dropped.other same]
    exact present

theorem Dropped.nextIno (dropped : Dropped middle next child) : next.nextIno = middle.nextIno := by
  rcases dropped with rfl | ⟨node, _, _, _, rfl⟩
  · rfl
  · rfl

theorem Made.nextIno (isMade : Made state fresh) : fresh.nextIno = add state.nextIno 1 := by
  rcases isMade with ⟨node, _, _, rfl⟩
  rfl

theorem Ascending.made (ascending : state.Ascending) (isMade : Made state fresh)
    (small : state.nextIno + 1 < modulus) : fresh.Ascending := by
  intro ino present
  rw [isMade.nextIno, add_eq small]
  rcases isMade.present.mp present with isNew | old
  · omega
  · have := ascending ino old
    omega

theorem Ascending.edit {target : Option Nat} (ascending : state.Ascending)
    (edited : Edited state next dir name target) : next.Ascending := by
  intro ino present
  rw [edited.nextIno]
  exact ascending ino (edited.present.mp present)

theorem Ascending.effect (ascending : state.Ascending)
    (small : state.nextIno + 1 < modulus) (effect : Effect state call result next) :
    next.Ascending := by
  cases effect with
  | refused _ => exact ascending
  | orphaned _ isMade _ => exact ascending.made isMade small
  | entered _ isMade edited => exact (ascending.made isMade small).edit edited
  | removed _ _ _ edited dropped =>
    intro ino present
    rw [dropped.nextIno]
    exact ascending.edit edited ino (dropped.present present)
  | mislaid _ erased _ => exact ascending.edit erased
  | moved _ erased inserted => exact (ascending.edit erased).edit inserted

/-- Until the numbers wrap every run is one of those above. -/
theorem reachable_of_unwrapped
    (reachable : (treeSystem fun state _ => state.nextIno + 1 < modulus).Reachable state) :
    state.Ascending ∧ (treeSystem Numbered).Reachable state := by
  induction reachable with
  | initial starts =>
    refine ⟨?_, .initial starts⟩
    rw [starts]
    rintro ino ⟨node, isNode⟩
    by_cases isRoot : ino = 1
    · subst isRoot
      exact Nat.lt_succ_self 1
    · have noNode : new.nodes ino = none := Function.update_of_ne isRoot _ fun _ => none
      rw [noNode] at isNode
      cases isNode
  | step _ taken induction =>
    rcases taken with ⟨small, rfl⟩
    rcases induction with ⟨ascending, reachable⟩
    exact ⟨ascending.effect small (perform_effect _),
      reachable.step ⟨fun _ _ => ascending.unused, rfl⟩⟩

/-- A file and a directory are made and the file is removed. -/
theorem reachable_of_unwrapped_directory : ∃ state : TmpState,
    (∃ node, state.nodes 3 = some node) ∧ state.nodes 2 = none ∧ state.nextIno = 4 ∧
      state.Ascending ∧ (treeSystem Numbered).Reachable state := by
  have made : (treeSystem fun state _ => state.nextIno + 1 < modulus).Reachable
      (perform (.create ⟨0, 0, 0⟩ 1 [97] 0o644) new).2 :=
    .step (.initial rfl) ⟨by decide, rfl⟩
  have both := made.via (.mkdir ⟨0, 0, 0⟩ 1 [98] 0o755) ⟨by decide, rfl⟩
  have removed := both.via (.unlink 1 [97]) ⟨by decide, rfl⟩
  exact ⟨_, ⟨_, rfl⟩, rfl, rfl, reachable_of_unwrapped removed⟩

/-! ## Numbers that wrap

Directory 2 is moved into directory 3. Then a file is made in directory 3 and removed again,
until the numbers come back to 2.
-/

/-- A run can get to a state with this next number in which directory 3 names node 2. -/
def Recycles (number : Nat) : Prop :=
  ∃ state, (treeSystem fun _ _ => True).Reachable state ∧ state.entry 3 [97] = some 2 ∧
    state.nextIno = number

theorem Made.entry_other (isMade : Made state fresh) (different : dir ≠ state.nextIno) :
    fresh.entry dir name = state.entry dir name := by
  rcases isMade with ⟨node, _, _, rfl⟩
  exact entry_congr (setNode_other different)

theorem Effect.create {caller : Caller} {label : Name} {mode : Nat}
    (effect : Effect state (.create caller 3 label mode) result next)
    (isEntry : state.entry 3 [97] = some 2) (different : state.nextIno ≠ 3)
    (otherName : label ≠ [97]) :
    next.entry 3 [97] = some 2 ∧ next.entry 3 label = some state.nextIno ∧
      next.nextIno = add state.nextIno 1 := by
  cases effect with
  | refused notEnters => cases notEnters
  | orphaned enters isMade notDir =>
    cases enters
    exact absurd (Directory.of_entry ((isMade.entry_other different.symm).trans isEntry)) notDir
  | entered enters isMade edited =>
    cases enters
    refine ⟨?_, ?_, edited.nextIno.trans isMade.nextIno⟩
    · rw [edited.entry, redirect_other fun same => otherName same.2.symm,
        isMade.entry_other different.symm, isEntry]
    · rw [edited.entry, redirect_same]
  | removed removes => cases removes

theorem Effect.unlink {label : Name} (effect : Effect state (.unlink 3 label) result next)
    (isEntry : state.entry 3 [97] = some 2) (otherName : label ≠ [97]) :
    next.entry 3 [97] = some 2 ∧ next.nextIno = state.nextIno := by
  cases effect with
  | refused _ => exact ⟨isEntry, rfl⟩
  | orphaned enters | entered enters => cases enters
  | removed removes _ leaf edited dropped =>
    cases removes
    rw [dropped.entry (edited.leaf leaf), edited.entry, dropped.nextIno]
    exact ⟨(redirect_other fun same => otherName same.2.symm).trans isEntry, edited.nextIno⟩

theorem reachable_perform (reachable : (treeSystem fun _ _ => True).Reachable state)
    (call : TreeCall) : (treeSystem fun _ _ => True).Reachable (perform call state).2 :=
  reachable.step ⟨trivial, rfl⟩

theorem recycles_first : Recycles 4 := by
  have first := reachable_perform (.initial rfl) (.mkdir ⟨0, 0, 0⟩ 1 [97] 0o755)
  have second := reachable_perform first (.mkdir ⟨0, 0, 0⟩ 1 [98] 0o755)
  have third := reachable_perform second (.rename 1 [97] 3 [97])
  exact ⟨_, third, by decide +kernel, by decide +kernel⟩

theorem Recycles.more {number : Nat} (recycles : Recycles number) (different : number ≠ 3) :
    Recycles (add number 1) := by
  rcases recycles with ⟨state, reachable, isEntry, rfl⟩
  let call : TreeCall := .create ⟨0, 0, 0⟩ 3 [120] 0o644
  have created := (perform_effect call).create isEntry different (by decide)
  have unlinked := (perform_effect (.unlink 3 [120])).unlink created.1 (by decide)
  exact ⟨_, reachable_perform (reachable_perform reachable call) (.unlink 3 [120]), unlinked.1,
    unlinked.2.trans created.2.2⟩

theorem recycles_all (count : Nat) (small : 4 + count < modulus) : Recycles (4 + count) := by
  induction count with
  | zero => exact recycles_first
  | succ count induction =>
    have more := (induction (by omega)).more (by omega)
    rw [add_eq (by omega)] at more
    exact more

theorem recycled_number_shared :
    ∃ state, (treeSystem fun _ _ => True).Reachable state ∧ ¬state.Sound := by
  have last : Recycles (modulus - 1) := recycles_all (modulus - 5) (by decide)
  have zero : Recycles 0 := last.more (by decide)
  have one : Recycles 1 := zero.more (by decide)
  have two : Recycles 2 := one.more (by decide)
  rcases two with ⟨state, reachable, isEntry, isNext⟩
  let call : TreeCall := .create ⟨0, 0, 0⟩ 3 [99] 0o644
  have different : state.nextIno ≠ 3 := by
    rw [isNext]
    decide
  have created := (perform_effect call).create isEntry different (by decide)
  rw [isNext] at created
  refine ⟨_, reachable_perform reachable call, ?_⟩
  intro sound
  exact absurd (sound.unshared _ _ _ _ 2 created.1 created.2.1).2 (by decide)

end TmpState

end Qunix.Fs.Tmpfs
