import Mathlib.Data.List.AList
import Qunix.Foundation.Procedure
import Qunix.Fs.Tmpfs.FileData

/-! # The names of a tmpfs

`TmpState` of `fs/tmpfs/mod.rs` and the calls of `TmpInoOps` that change names. The calls
change the state under its lock, so they run one after the other; `create`, `mkdir` and
`symlink` take it again for `make_inode`, which only reads. A call that fails returns early and
keeps what it has already changed.
-/

namespace Qunix.Fs.Tmpfs

open Foundation

abbrev Name := List UInt8

/-- A `BTreeMap` from names to numbers of nodes. -/
abbrev Children := AList fun _ : Name => Nat

inductive NodeData
  | file (data : TmpFileData)
  | dir (children : Children)
  | symlink (target : List UInt8)

structure TmpNode where
  ino : Nat
  mode : Nat
  uid : Nat
  gid : Nat
  data : NodeData
  atime : Int
  mtime : Int
  ctime : Int
  nlink : Nat

structure TmpState where
  nodes : Nat → Option TmpNode
  nextIno : Nat

inductive TreeError
  | enoent
  | enotdir
  | eisdir
  | enotempty
deriving DecidableEq

abbrev TmpM := Procedure TmpState TreeError

structure Caller where
  uid : Nat
  gid : Nat
  ticks : Int

namespace TmpState

/-- `BTreeMap::insert` and `BTreeMap::remove` on the nodes. -/
def setNode (self : TmpState) (ino : Nat) (node : Option TmpNode) : TmpState :=
  { self with nodes := Function.update self.nodes ino node }

def new : TmpState where
  nodes := Function.update (fun _ => none) 1
    (some ⟨1, 0o040755, 0, 0, .dir ∅, 0, 0, 0, 2⟩)
  nextIno := 2

/-- A number of 64 bits that wraps. -/
def allocIno : TmpM Nat := fun self =>
  (.ok self.nextIno, { self with nextIno := Word.add self.nextIno 1 })

variable (caller : Caller)

/-- What `make_file`, `make_dir` and `make_symlink` have in common. -/
def makeNode (mode : Nat) (data : NodeData) (nlink : Nat) : TmpM Nat := do
  let ino ← allocIno
  fun self => (.ok (), self.setNode ino (some ⟨ino, mode, caller.uid, caller.gid, data,
    caller.ticks, caller.ticks, caller.ticks, nlink⟩))
  pure ino

def makeFile (mode : Nat) : TmpM Nat :=
  makeNode caller (0o100000 ||| (mode &&& 0o777)) (.file .new) 1

def makeDir (mode : Nat) : TmpM Nat :=
  makeNode caller (0o040000 ||| (mode &&& 0o777)) (.dir ∅) 2

def makeSymlink (target : List UInt8) : TmpM Nat :=
  makeNode caller (0o120000 ||| 0o777) (.symlink target) 1

def childrenOf (self : TmpState) (ino : Nat) : Except TreeError Children :=
  match self.nodes ino with
  | none => .error .enoent
  | some node =>
    match node.data with
    | .dir children => .ok children
    | _ => .error .enotdir

def editDir (ino : Nat) (edit : Children → Children) : TmpM Unit := fun self =>
  match self.nodes ino with
  | none => (.error .enoent, self)
  | some node =>
    match node.data with
    | .dir children =>
      (.ok (), self.setNode ino (some { node with data := .dir (edit children) }))
    | _ => (.error .enotdir, self)

def makeInode (ino : Nat) : TmpM Nat :=
  Procedure.observe fun self =>
    match self.nodes ino with
    | none => .error .enoent
    | some _ => .ok ino

/-- What `create`, `mkdir` and `symlink` have in common: the node is made first, and then
it is entered. -/
def enter (make : TmpM Nat) (self : Nat) (name : Name) : TmpM Nat := do
  let ino ← make
  editDir self fun children => children.insert name ino
  makeInode ino

variable (self : Nat) (name : Name)

def create (mode : Nat) : TmpM Nat :=
  enter (makeFile caller mode) self name

def mkdir (mode : Nat) : TmpM Nat :=
  enter (makeDir caller mode) self name

def symlink (target : List UInt8) : TmpM Nat :=
  enter (makeSymlink caller target) self name

/-- The number behind a name, as `unlink`, `rmdir` and `rename` read it. -/
def childIno : TmpM Nat :=
  Procedure.observe fun state => do
    let children ← state.childrenOf self
    match children.lookup name with
    | none => .error .enoent
    | some ino => .ok ino

def node (ino : Nat) : TmpM TmpNode :=
  Procedure.observe fun state =>
    match state.nodes ino with
    | none => .error .enoent
    | some node => .ok node

def dropLink (ino : Nat) : TmpM Unit := fun state =>
  match state.nodes ino with
  | none => (.ok (), state)
  | some node =>
    if node.nlink - 1 = 0 then (.ok (), state.setNode ino none)
    else (.ok (), state.setNode ino (some { node with nlink := node.nlink - 1 }))

def removeNode (ino : Nat) : TmpM Unit := fun state => (.ok (), state.setNode ino none)

def checkNotDir (node : TmpNode) : TmpM Unit :=
  match node.data with
  | .dir _ => .fail .eisdir
  | _ => pure ()

def checkEmptyDir (node : TmpNode) : TmpM Unit :=
  match node.data with
  | .dir children => if children.entries = [] then pure () else .fail .enotempty
  | _ => .fail .enotdir

def unlink : TmpM Unit := do
  let childIno ← childIno self name
  checkNotDir (← node childIno)
  editDir self fun children => children.erase name
  dropLink childIno

def rmdir : TmpM Unit := do
  let childIno ← childIno self name
  checkEmptyDir (← node childIno)
  editDir self fun children => children.erase name
  removeNode childIno

def rename (oldName : Name) (newParentIno : Nat) (newName : Name) : TmpM Unit := do
  let childIno ← childIno self oldName
  editDir self fun children => children.erase oldName
  editDir newParentIno fun children => children.insert newName childIno

end TmpState

end Qunix.Fs.Tmpfs
