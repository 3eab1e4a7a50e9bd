import Qunix.Foundation.NamedGraph
import Qunix.Foundation.Reachability
import Qunix.Fs.Tmpfs.Tree

/-! # What a call does to the names

The entries of all directories are one graph with named edges. A call edits single edges of
it and single nodes; the cases of `Effect` are everything a call can do.
-/

namespace Qunix.Fs.Tmpfs

open Foundation Procedure

/-- A name in a node; only directories have any. -/
def TmpNode.lookup (self : TmpNode) (name : Name) : Option Nat :=
  match self.data with
  | .dir children => children.lookup name
  | _ => none

theorem TmpNode.lookup_dir {node : TmpNode} {children : Children} {name : Name}
    (isChildren : node.data = .dir children) : node.lookup name = children.lookup name := by
  rw [lookup, isChildren]

def TmpNode.IsDir (self : TmpNode) : Prop := ∃ children, self.data = .dir children

namespace TmpState

def entry (self : TmpState) (dir : Nat) (name : Name) : Option Nat :=
  (self.nodes dir).bind fun node => node.lookup name

def Present (self : TmpState) (ino : Nat) : Prop := ∃ node, self.nodes ino = some node

def Directory (self : TmpState) (ino : Nat) : Prop :=
  ∃ node, self.nodes ino = some node ∧ node.IsDir

variable {state made middle next : TmpState} {ino dir child : Nat} {name : Name}

@[simp] theorem setNode_same {node : Option TmpNode} : (state.setNode ino node).nodes ino = node :=
  Function.update_self ..

theorem setNode_other {node : Option TmpNode} {other : Nat} (different : other ≠ ino) :
    (state.setNode ino node).nodes other = state.nodes other :=
  Function.update_of_ne different ..

theorem entry_of_node {node : TmpNode} (isNode : state.nodes dir = some node) :
    state.entry dir name = node.lookup name := by
  rw [entry, isNode, Option.bind_some]

theorem entry_congr {other : TmpState} (same : other.nodes dir = state.nodes dir) :
    other.entry dir name = state.entry dir name := by
  rw [entry, entry, same]

theorem Directory.of_entry (isEntry : state.entry dir name = some ino) : state.Directory dir := by
  rcases found : state.nodes dir with _ | node
  · rw [entry, found] at isEntry
    cases isEntry
  refine ⟨node, found, ?_⟩
  rw [entry_of_node found, TmpNode.lookup] at isEntry
  split at isEntry
  next children isDir => exact ⟨children, isDir⟩
  next => cases isEntry

theorem Directory.present (isDir : state.Directory ino) : state.Present ino := by
  rcases isDir with ⟨node, isNode, _⟩
  exact ⟨node, isNode⟩

/-! ## Edits of one directory -/

/-- One name of one directory is changed; every other node is as it was. -/
structure Edited (state next : TmpState) (dir : Nat) (name : Name) (target : Option Nat) :
    Prop where
  directory : state.Directory dir
  entry : next.entry = NamedGraph.redirect state.entry dir name target
  other : ∀ ino, ino ≠ dir → next.nodes ino = state.nodes ino
  stays : next.Directory dir
  nextIno : next.nextIno = state.nextIno

/-- The edit changes the entry of one name. -/
def Edits (edit : Children → Children) (name : Name) (target : Option Nat) : Prop :=
  ∀ children other,
    (edit children).lookup other = if other = name then target else children.lookup other

theorem edits_erase : Edits (fun children => children.erase name) name none := by
  intro children other
  by_cases same : other = name
  · rw [if_pos same, same, AList.lookup_erase]
  · rw [if_neg same, AList.lookup_erase_ne same]

theorem edits_insert : Edits (fun children => children.insert name child) name (some child) := by
  intro children other
  by_cases same : other = name
  · rw [if_pos same, same, AList.lookup_insert]
  · rw [if_neg same, AList.lookup_insert_ne same]

variable {edit : Children → Children} {target : Option Nat}

theorem editDir_of_directory (edits : Edits edit name target) (isDir : state.Directory dir) :
    ∃ next, editDir dir edit state = (.ok (), next) ∧ Edited state next dir name target := by
  rcases isDir with ⟨node, isNode, children, isChildren⟩
  let edited : TmpNode := { node with data := .dir (edit children) }
  refine ⟨state.setNode dir (some edited), ?_, ⟨node, isNode, children, isChildren⟩, ?_, ?_, ?_,
    rfl⟩
  · rw [editDir, isNode]
    dsimp only
    rw [isChildren]
  · funext place other
    by_cases same : place = dir
    · subst same
      rw [entry_of_node setNode_same]
      change (edit children).lookup other = _
      rw [edits children other]
      by_cases isName : other = name
      · rw [if_pos isName, NamedGraph.redirect, if_pos ⟨rfl, isName⟩]
      · rw [if_neg isName, NamedGraph.redirect_other fun equal => isName equal.2,
          entry_of_node isNode, TmpNode.lookup_dir isChildren]
    · rw [NamedGraph.redirect_other fun equal => same equal.1]
      exact entry_congr (setNode_other same)
  · intro ino different
    exact setNode_other different
  · exact ⟨edited, setNode_same, edit children, rfl⟩

theorem editDir_of_not_directory (notDir : ¬state.Directory dir) :
    ∃ error, editDir dir edit state = (.error error, state) := by
  rw [editDir]
  split
  next => exact ⟨.enoent, rfl⟩
  next node isNode =>
    split
    next children isChildren => exact absurd ⟨node, isNode, children, isChildren⟩ notDir
    next => exact ⟨.enotdir, rfl⟩

theorem Edited.present (edited : Edited state next dir name target) :
    next.Present ino ↔ state.Present ino := by
  by_cases same : ino = dir
  · subst same
    exact ⟨fun _ => edited.directory.present, fun _ => edited.stays.present⟩
  · rw [Present, Present, edited.other ino same]

theorem Edited.directory_iff (edited : Edited state next dir name target) :
    next.Directory ino ↔ state.Directory ino := by
  by_cases same : ino = dir
  · subst same
    exact ⟨fun _ => edited.directory, fun _ => edited.stays⟩
  · rw [Directory, Directory, edited.other ino same]

/-! ## Reading a name -/

theorem childIno_of_entry (isEntry : state.entry dir name = some child) :
    childIno dir name state = (.ok child, state) := by
  rcases Directory.of_entry isEntry with ⟨node, isNode, children, isChildren⟩
  rw [entry_of_node isNode, TmpNode.lookup_dir isChildren] at isEntry
  have found : state.childrenOf dir = .ok children := by
    rw [childrenOf, isNode]
    dsimp only
    rw [isChildren]
  simp only [childIno, observe, found, bind, Except.bind, isEntry]

theorem childIno_of_none (noEntry : state.entry dir name = none) :
    ∃ error, childIno dir name state = (.error error, state) := by
  rw [childIno, observe]
  rcases found : state.childrenOf dir with error | children
  · exact ⟨error, rfl⟩
  refine ⟨.enoent, ?_⟩
  rw [childrenOf] at found
  split at found
  next => cases found
  next node isNode =>
  split at found
  next same isChildren =>
    cases found
    rw [entry_of_node isNode, TmpNode.lookup_dir isChildren] at noEntry
    simp only [bind, Except.bind, noEntry]
  next => cases found

theorem node_of_some {found : TmpNode} (isNode : state.nodes ino = some found) :
    node ino state = (.ok found, state) := by
  rw [node, observe, isNode]

theorem node_of_none (noNode : state.nodes ino = none) :
    node ino state = (.error .enoent, state) := by
  rw [node, observe, noNode]

/-! ## The calls -/

inductive TreeCall
  | create (caller : Caller) (self : Nat) (name : Name) (mode : Nat)
  | mkdir (caller : Caller) (self : Nat) (name : Name) (mode : Nat)
  | symlink (caller : Caller) (self : Nat) (name : Name) (target : List UInt8)
  | unlink (self : Nat) (name : Name)
  | rmdir (self : Nat) (name : Name)
  | rename (self : Nat) (oldName : Name) (newParentIno : Nat) (newName : Name)

/-- Make a call; the number that a creating call returns is dropped. -/
def perform : TreeCall → TmpM Unit
  | .create caller self name mode => do let _ ← create caller self name mode
  | .mkdir caller self name mode => do let _ ← mkdir caller self name mode
  | .symlink caller self name target => do let _ ← symlink caller self name target
  | .unlink self name => unlink self name
  | .rmdir self name => rmdir self name
  | .rename self oldName newParentIno newName => rename self oldName newParentIno newName

def TreeCall.enters : TreeCall → Option (Nat × Name)
  | .create _ self name _ | .mkdir _ self name _ | .symlink _ self name _ => some (self, name)
  | _ => none

def TreeCall.removes : TreeCall → Option (Nat × Name)
  | .unlink self name | .rmdir self name => some (self, name)
  | _ => none

/-- A node without entries is made under the next number. -/
def Made (state made : TmpState) : Prop :=
  ∃ node : TmpNode, (∀ name, node.lookup name = none) ∧ (node.IsDir ∨ node.nlink = 1) ∧
    made = { state.setNode state.nextIno (some node) with nextIno := Word.add state.nextIno 1 }

/-- A node is taken away, or a link of a file that has more than one. -/
def Dropped (middle next : TmpState) (ino : Nat) : Prop :=
  next = middle.setNode ino none ∨
    ∃ node, middle.nodes ino = some node ∧ ¬node.IsDir ∧ 1 < node.nlink ∧
      next = middle.setNode ino (some { node with nlink := node.nlink - 1 })

inductive Effect (state : TmpState) : TreeCall → Except TreeError Unit → TmpState → Prop
  | refused {call : TreeCall} {error : TreeError} (notEnters : call.enters = none) :
      Effect state call (.error error) state
  | orphaned {call : TreeCall} {self : Nat} {name : Name} {error : TreeError} {next : TmpState}
      (enters : call.enters = some (self, name)) (isMade : Made state next)
      (notDir : ¬next.Directory self) : Effect state call (.error error) next
  | entered {call : TreeCall} {self : Nat} {name : Name} {middle next : TmpState}
      (enters : call.enters = some (self, name)) (isMade : Made state middle)
      (edited : Edited middle next self name (some state.nextIno)) :
      Effect state call (.ok ()) next
  | removed {call : TreeCall} {self child : Nat} {name : Name} {middle next : TmpState}
      (removes : call.removes = some (self, name)) (isEntry : state.entry self name = some child)
      (leaf : ∀ other, state.entry child other = none)
      (edited : Edited state middle self name none) (dropped : Dropped middle next child) :
      Effect state call (.ok ()) next
  | mislaid {self child newParentIno : Nat} {oldName newName : Name} {error : TreeError}
      {next : TmpState} (isEntry : state.entry self oldName = some child)
      (erased : Edited state next self oldName none) (notDir : ¬next.Directory newParentIno) :
      Effect state (.rename self oldName newParentIno newName) (.error error) next
  | moved {self child newParentIno : Nat} {oldName newName : Name} {middle next : TmpState}
      (isEntry : state.entry self oldName = some child)
      (erased : Edited state middle self oldName none)
      (inserted : Edited middle next newParentIno newName (some child)) :
      Effect state (.rename self oldName newParentIno newName) (.ok ()) next

def HasEffect (state : TmpState) (call : TreeCall) (outcome : Except TreeError Unit × TmpState) :
    Prop :=
  Effect state call outcome.1 outcome.2

theorem makeNode_made {caller : Caller} {mode : Nat} {data : NodeData} {nlink : Nat}
    (empty : ∀ name, (TmpNode.mk state.nextIno mode caller.uid caller.gid data caller.ticks
      caller.ticks caller.ticks nlink).lookup name = none)
    (single : (∃ children, data = .dir children) ∨ nlink = 1) :
    ∃ made, makeNode caller mode data nlink state = (.ok state.nextIno, made) ∧ Made state made :=
  ⟨_, rfl, _, empty, single, rfl⟩

/-- `create`, `mkdir` and `symlink` differ in the node only. -/
theorem enter_effect {make : TmpM Nat} {call : TreeCall} {self : Nat}
    (enters : call.enters = some (self, name))
    (makes : ∃ made, make state = (.ok state.nextIno, made) ∧ Made state made) :
    HasEffect state call ((do let _ ← enter make self name : TmpM Unit) state) := by
  rcases makes with ⟨made, run, isMade⟩
  by_cases isDir : made.Directory self
  · rcases editDir_of_directory (@edits_insert state.nextIno name) isDir with
      ⟨next, edit, edited⟩
    have present : next.Present state.nextIno := by
      rw [edited.present]
      rcases isMade with ⟨node, _, _, rfl⟩
      exact ⟨node, setNode_same⟩
    rcases present with ⟨node, isNode⟩
    have done : enter make self name state = (.ok state.nextIno, next) := by
      rw [enter, bind_of_ok run, bind_of_ok edit, makeInode, observe, isNode]
    rw [bind_of_ok done]
    exact .entered enters isMade edited
  · rcases editDir_of_not_directory isDir with ⟨error, edit⟩
    have failed : enter make self name state = (.error error, made) := by
      rw [enter, bind_of_ok run, bind_of_error edit]
    rw [bind_of_error failed]
    exact .orphaned enters isMade isDir

/-- A call that looks a name up first. -/
theorem HasEffect.lookup {call : TreeCall} {rest : Nat → TmpM Unit}
    (notEnters : call.enters = none) (found : ∀ child, state.entry dir name = some child →
      HasEffect state call (rest child state)) :
    HasEffect state call ((childIno dir name >>= rest) state) := by
  rcases isEntry : state.entry dir name with _ | child
  · rcases childIno_of_none isEntry with ⟨error, run⟩
    rw [bind_of_error run]
    exact .refused notEnters
  · rw [bind_of_ok (childIno_of_entry isEntry)]
    exact found child isEntry

theorem unlink_effect {self : Nat} :
    HasEffect state (.unlink self name) (unlink self name state) := by
  refine .lookup rfl fun child isEntry => ?_
  rcases isNode : state.nodes child with _ | found
  · rw [bind_of_error (node_of_none isNode)]
    exact .refused rfl
  rw [bind_of_ok (node_of_some isNode)]
  by_cases isDir : found.IsDir
  · rcases isDir with ⟨children, isChildren⟩
    have check : checkNotDir found state = (.error .eisdir, state) := by
      rw [checkNotDir, isChildren]
      rfl
    rw [bind_of_error check]
    exact .refused rfl
  have check : checkNotDir found state = (.ok (), state) := by
    rcases isData : found.data with data | children | target
    · rw [checkNotDir, isData]
      rfl
    · exact absurd ⟨children, isData⟩ isDir
    · rw [checkNotDir, isData]
      rfl
  rcases editDir_of_directory edits_erase (Directory.of_entry isEntry) with ⟨middle, edit, edited⟩
  rw [bind_of_ok check, bind_of_ok edit]
  have leaf : ∀ other, state.entry child other = none := by
    intro other
    rw [entry_of_node isNode, TmpNode.lookup]
    split
    next children isChildren => exact absurd ⟨children, isChildren⟩ isDir
    next => rfl
  -- The entry is in a directory, so it is not the file itself.
  have different : child ≠ self := by
    rintro rfl
    rw [leaf] at isEntry
    cases isEntry
  have isMiddle : middle.nodes child = some found := (edited.other child different).trans isNode
  rw [dropLink, isMiddle]
  dsimp only
  split
  · exact .removed rfl isEntry leaf edited (.inl rfl)
  next more =>
    exact .removed rfl isEntry leaf edited (.inr ⟨found, isMiddle, isDir, by omega, rfl⟩)

theorem rmdir_effect {self : Nat} : HasEffect state (.rmdir self name) (rmdir self name state) := by
  refine .lookup rfl fun child isEntry => ?_
  rcases isNode : state.nodes child with _ | found
  · rw [bind_of_error (node_of_none isNode)]
    exact .refused rfl
  rw [bind_of_ok (node_of_some isNode)]
  by_cases isEmpty : ∃ children : Children, found.data = .dir children ∧ children.entries = []
  · rcases isEmpty with ⟨children, isChildren, empty⟩
    have check : checkEmptyDir found state = (.ok (), state) := by
      rw [checkEmptyDir, isChildren]
      exact congrFun (if_pos empty) state
    rcases editDir_of_directory edits_erase (Directory.of_entry isEntry) with
      ⟨middle, edit, edited⟩
    rw [bind_of_ok check, bind_of_ok edit]
    refine .removed rfl isEntry ?_ edited (.inl rfl)
    intro other
    rw [entry_of_node isNode, TmpNode.lookup_dir isChildren, AList.lookup, empty]
    rfl
  · have check : ∃ error, checkEmptyDir found state = (.error error, state) := by
      rcases isData : found.data with data | children | target
      · rw [checkEmptyDir, isData]
        exact ⟨.enotdir, rfl⟩
      · rw [checkEmptyDir, isData]
        dsimp only
        rw [if_neg fun empty => isEmpty ⟨children, isData, empty⟩]
        exact ⟨.enotempty, rfl⟩
      · rw [checkEmptyDir, isData]
        exact ⟨.enotdir, rfl⟩
    rcases check with ⟨error, check⟩
    rw [bind_of_error check]
    exact .refused rfl

theorem rename_effect {self newParentIno : Nat} {oldName newName : Name} :
    HasEffect state (.rename self oldName newParentIno newName)
      (rename self oldName newParentIno newName state) := by
  refine .lookup rfl fun child isEntry => ?_
  rcases editDir_of_directory edits_erase (Directory.of_entry isEntry) with ⟨middle, edit, erased⟩
  rw [bind_of_ok edit]
  by_cases isDir : middle.Directory newParentIno
  · rcases editDir_of_directory (@edits_insert child newName) isDir with ⟨next, insert, inserted⟩
    rw [insert]
    exact .moved isEntry erased inserted
  · rcases @editDir_of_not_directory middle newParentIno
      (fun children => children.insert newName child) isDir with ⟨error, insert⟩
    rw [insert]
    exact .mislaid isEntry erased isDir

theorem perform_effect (call : TreeCall) : HasEffect state call (perform call state) := by
  cases call with
  | create caller self name mode | symlink caller self name target =>
    exact enter_effect rfl (makeNode_made (fun _ => rfl) (.inr rfl))
  | mkdir caller self name mode =>
    exact enter_effect rfl (makeNode_made (fun _ => rfl) (.inl ⟨∅, rfl⟩))
  | unlink self name => exact unlink_effect
  | rmdir self name => exact rmdir_effect
  | rename self oldName newParentIno newName => exact rename_effect

def treeSystem (Allowed : TmpState → TreeCall → Prop) : TransitionSystem TmpState TreeCall where
  Initial := fun state => state = new
  Step := fun state call next => Allowed state call ∧ (perform call state).2 = next

end TmpState

end Qunix.Fs.Tmpfs
