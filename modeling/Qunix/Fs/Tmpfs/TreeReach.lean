import Qunix.Fs.Tmpfs.TreeNames

/-! # Nodes that can be reached

Calls that enter a new name in an existing directory, and renames to a free name that is not
below the renamed node, keep every node reachable from the root and change nothing when they
fail. A call outside these conditions can leave nodes without a name.
-/

namespace Qunix.Fs.Tmpfs

open Foundation NamedGraph

namespace TmpState

variable {state fresh middle next : TmpState} {ino dir child : Nat} {name : Name} {call : TreeCall}

def Connected (state : TmpState) : Prop :=
  ∀ ino, state.Present ino → NamedGraph.Reached state.entry 1 ino

def SingleLinks (state : TmpState) : Prop :=
  ∀ ino node, state.nodes ino = some node → node.IsDir ∨ node.nlink ≤ 1

/-- A new name in an existing directory, and a number that is free. -/
def Enterable (state : TmpState) (dir : Nat) (name : Name) : Prop :=
  state.nodes state.nextIno = none ∧ state.Directory dir ∧ state.entry dir name = none

/-- The new place is a free name in an existing directory that is not below the node. A name
that is moved onto itself is free once it is taken away. -/
def Movable (state : TmpState) (self : Nat) (oldName : Name) (newParentIno : Nat)
    (newName : Name) : Prop :=
  ∀ child, state.entry self oldName = some child →
    state.Directory newParentIno ∧
      redirect state.entry self oldName none newParentIno newName = none ∧
      ¬NamedGraph.Reached state.entry child newParentIno

def Careful (state : TmpState) : TreeCall → Prop
  | .create _ self name _ | .mkdir _ self name _ | .symlink _ self name _ =>
    state.Enterable self name
  | .rename self oldName newParentIno newName => state.Movable self oldName newParentIno newName
  | .unlink _ _ | .rmdir _ _ => True

theorem Careful.enterable {self : Nat} (careful : state.Careful call)
    (enters : call.enters = some (self, name)) : state.Enterable self name := by
  cases call with
  | create | mkdir | symlink =>
    cases enters
    exact careful
  | unlink | rmdir | rename => cases enters

/-! ## Links -/

theorem SingleLinks.edit {target : Option Nat} (single : state.SingleLinks)
    (edited : Edited state next dir name target) : next.SingleLinks := by
  intro ino node isNode
  by_cases same : ino = dir
  · subst same
    rcases edited.stays with ⟨found, isFound, isDir⟩
    rw [isFound] at isNode
    cases isNode
    exact .inl isDir
  · rw [edited.other ino same] at isNode
    exact single ino node isNode

theorem SingleLinks.made (single : state.SingleLinks) (isMade : Made state fresh) :
    fresh.SingleLinks := by
  rcases isMade with ⟨node, _, links, rfl⟩
  intro ino found isFound
  by_cases same : ino = state.nextIno
  · subst same
    have isNode : some node = some found := setNode_same.symm.trans isFound
    cases isNode
    exact links.imp_right le_of_eq
  · have kept : state.nodes ino = some found := (setNode_other same).symm.trans isFound
    exact single ino found kept

theorem Dropped.gone (dropped : Dropped middle next child) (single : middle.SingleLinks) :
    next = middle.setNode child none := by
  rcases dropped with gone | ⟨node, isNode, notDir, more, _⟩
  · exact gone
  · rcases single child node isNode with isDir | few
    · exact absurd isDir notDir
    · omega

theorem SingleLinks.drop (single : middle.SingleLinks) (dropped : Dropped middle next child) :
    next.SingleLinks := by
  rw [dropped.gone single]
  intro ino node isNode
  by_cases same : ino = child
  · subst same
    rw [setNode_same] at isNode
    cases isNode
  · rw [setNode_other same] at isNode
    exact single ino node isNode

variable {result : Except TreeError Unit}

theorem SingleLinks.effect (single : state.SingleLinks)
    (effect : Effect state call result next) : next.SingleLinks := by
  cases effect with
  | refused _ => exact single
  | orphaned _ isMade _ => exact single.made isMade
  | entered _ isMade edited => exact (single.made isMade).edit edited
  | removed _ _ _ edited dropped => exact (single.edit edited).drop dropped
  | mislaid _ erased _ => exact single.edit erased
  | moved _ erased inserted => exact (single.edit erased).edit inserted

/-! ## Reachability -/

theorem Made.directory (isMade : Made state fresh) (unused : state.nodes state.nextIno = none)
    (isDir : state.Directory dir) : fresh.Directory dir := by
  rcases isMade with ⟨node, _, _, rfl⟩
  rcases isDir with ⟨found, isFound, dirFound⟩
  have different : dir ≠ state.nextIno := by
    rintro rfl
    rw [unused] at isFound
    cases isFound
  exact ⟨found, (setNode_other different).trans isFound, dirFound⟩

theorem Connected.effect (connected : state.Connected)
    (single : state.SingleLinks) (careful : state.Careful call)
    (effect : Effect state call result next) :
    next.Connected ∧ ∀ error, result = .error error → next.nodes = state.nodes := by
  cases effect with
  | refused _ => exact ⟨connected, fun _ _ => rfl⟩
  | orphaned enters isMade notDir =>
    have enterable := careful.enterable enters
    exact absurd (isMade.directory enterable.1 enterable.2.1) notDir
  | entered enters isMade edited =>
    refine ⟨?_, by simp⟩
    have enterable := careful.enterable enters
    have sameEntries := isMade.entry enterable.1
    intro ino present
    rw [edited.entry, sameEntries]
    rcases isMade.present.mp (edited.present.mp present) with rfl | old
    · exact (connected _ enterable.2.1.present).added enterable.2.2
    · exact (connected ino old).add enterable.2.2
  | removed _ isEntry leaf edited dropped =>
    refine ⟨?_, by simp⟩
    intro ino present
    have gone := dropped.gone (single.edit edited)
    rw [dropped.entry (edited.leaf leaf), edited.entry]
    have stays := (connected ino (edited.present.mp (dropped.present present))).remove_leaf
      isEntry leaf
    apply stays.resolve_left
    rintro rfl
    rcases present with ⟨node, isNode⟩
    rw [gone, setNode_same] at isNode
    cases isNode
  | mislaid isEntry erased notDir =>
    exact absurd (erased.directory_iff.mpr (careful _ isEntry).1) notDir
  | moved isEntry erased inserted =>
    refine ⟨?_, by simp⟩
    rcases careful _ isEntry with ⟨isDir, free, notBelow⟩
    intro ino present
    rw [inserted.entry, erased.entry]
    exact NamedGraph.Reached.move isEntry (connected _ isDir.present) notBelow free
      (connected ino (erased.present.mp (inserted.present.mp present)))

theorem new_node {node : TmpNode} (isNode : new.nodes ino = some node) : ino = 1 ∧ node.IsDir := by
  by_cases isRoot : ino = 1
  · subst isRoot
    cases isNode
    exact ⟨rfl, ∅, rfl⟩
  · have noNode : new.nodes ino = none := Function.update_of_ne isRoot _ fun _ => none
    rw [noNode] at isNode
    cases isNode

structure Rooted (state : TmpState) : Prop where
  connected : state.Connected
  single : state.SingleLinks

theorem rooted_new : new.Rooted where
  connected := by
    rintro ino ⟨node, isNode⟩
    rw [(new_node isNode).1]
    exact .refl
  single := by
    intro ino node isNode
    exact .inl (new_node isNode).2

theorem rooted_of_careful (reachable : (treeSystem Careful).Reachable state) : state.Rooted := by
  apply reachable.invariant
  · rintro state rfl
    exact rooted_new
  · rintro state call next rooted ⟨careful, rfl⟩
    have effect := @perform_effect state call
    exact ⟨(rooted.connected.effect rooted.single careful effect).1, rooted.single.effect effect⟩

/-- In every run of such calls every node is reached from the root, and a call that fails
changes neither nodes nor entries. -/
theorem reached_nodes_connected (reachable : (treeSystem Careful).Reachable state) :
    (∀ ino, state.Present ino → ino ≠ 1 → NamedGraph.Reached state.entry 1 ino) ∧
      ∀ call, state.Careful call → ∀ error next, perform call state = (.error error, next) →
        next.nodes = state.nodes := by
  have rooted := rooted_of_careful reachable
  refine ⟨fun ino present _ => rooted.connected ino present, ?_⟩
  intro call careful error next failed
  have effect := @perform_effect state call
  rw [failed] at effect
  exact (rooted.connected.effect rooted.single careful effect).2 error rfl

theorem directory_new : new.Directory 1 := ⟨_, rfl, ∅, rfl⟩

theorem enterable_new : new.Enterable 1 name := ⟨rfl, directory_new, entry_new⟩

theorem reached_nodes_connected_one :
    (treeSystem Careful).Reachable (perform (.create ⟨0, 0, 0⟩ 1 [97] 0o644) new).2 ∧
      NamedGraph.Reached (perform (.create ⟨0, 0, 0⟩ 1 [97] 0o644) new).2.entry 1 2 := by
  have careful : new.Careful (.create ⟨0, 0, 0⟩ 1 [97] 0o644) := enterable_new
  have reachable :
      (treeSystem Careful).Reachable (perform (.create ⟨0, 0, 0⟩ 1 [97] 0o644) new).2 :=
    .step (.initial rfl) ⟨careful, rfl⟩
  exact ⟨reachable, (reached_nodes_connected reachable).1 2 ⟨_, rfl⟩ (by decide)⟩

/-! ## Nodes that are lost -/

theorem Effect.enter (effect : Effect state call result next)
    (enters : call.enters = some (dir, name)) (unused : state.nodes state.nextIno = none)
    (isDir : state.Directory dir) :
    next.entry = redirect state.entry dir name (some state.nextIno) := by
  cases effect with
  | refused notEnters =>
    rw [enters] at notEnters
    cases notEnters
  | orphaned otherEnters isMade notDir =>
    rw [enters] at otherEnters
    cases otherEnters
    exact absurd (isMade.directory unused isDir) notDir
  | entered otherEnters isMade edited =>
    rw [enters] at otherEnters
    cases otherEnters
    rw [edited.entry, isMade.entry unused]
  | removed removes =>
    cases call with
    | create | mkdir | symlink => cases removes
    | unlink | rmdir | rename => cases enters
  | mislaid | moved => cases enters

/-- A file that is made under a name in use takes the name from the node that had it, and a
file that is made in a directory that is not there stays behind. -/
theorem replaced_node_lost :
    (∃ state, (treeSystem fun _ _ => True).Reachable state ∧ state.Present 2 ∧
      ¬NamedGraph.Reached state.entry 1 2) ∧
      ∃ next, perform (.create ⟨0, 0, 0⟩ 7 [97] 0o644) new = (.error .enoent, next) ∧
        ¬new.Present 2 ∧ next.Present 2 := by
  constructor
  · let call : TreeCall := .create ⟨0, 0, 0⟩ 1 [97] 0o644
    have first := reachable_perform (.initial rfl) call
    have firstEntry : (perform call new).2.entry = redirect new.entry 1 [97] (some 2) :=
      (perform_effect call).enter rfl rfl directory_new
    have secondEntry : (perform call (perform call new).2).2.entry =
        redirect (perform call new).2.entry 1 [97] (some 3) :=
      (perform_effect call).enter rfl rfl ⟨_, rfl, _, rfl⟩
    refine ⟨_, reachable_perform first call, ⟨_, rfl⟩, ?_⟩
    rw [secondEntry, firstEntry]
    intro reached
    rcases Relation.ReflTransGen.cases_tail reached with isRoot | ⟨dir, _, name, isEntry⟩
    · cases isRoot
    by_cases same : dir = 1 ∧ name = [97]
    · rw [redirect, if_pos same] at isEntry
      cases isEntry
    · rw [redirect_other same, redirect_other same, entry_new] at isEntry
      cases isEntry
  · refine ⟨_, rfl, ?_, ⟨_, rfl⟩⟩
    rintro ⟨node, isNode⟩
    cases isNode

end TmpState

end Qunix.Fs.Tmpfs
