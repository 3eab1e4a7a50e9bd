import Qunix.Fs.Ext4.BlockMap

/-! # Levels of an extent tree

How far `extent_search` goes down a tree that it finds on the disk. The format allows five levels
below the root, and the depth of a node is smaller than that of its parent; the search checks
neither.
-/

namespace Qunix.Fs.Ext4

open Foundation Bytes FlatArray List Nat Procedure

namespace Ext4Fs

variable (fs : Ext4Fs) (volume : Volume) (logical : Nat)

/-- The node that the search goes down to. -/
def childNode (node : List UInt8) : Option (List UInt8) :=
  if readLe16 node 0 ≠ extentMagic ∨ nodeDepth node = 0 then none
  else (childBlock node logical).bind fun child => (fs.readBlock child volume).1.toOption

/-- The node that the search visits on a level. -/
def nodeAt : (level : Nat) → List UInt8 → Option (List UInt8)
  | 0, root => some root
  | level + 1, root => (fs.childNode volume logical root).bind (nodeAt level)

/-- No level is visited from the limit on, so no higher limit changes the answer. -/
structure EndsBefore (root : List UInt8) (levels : Nat) : Prop where
  unvisited : fs.nodeAt volume logical levels root = none
  settled : ∀ more, fs.extentSearch (levels + more) root logical volume =
    fs.extentSearch levels root logical volume

/-- The header and the entries that are read lie in the buffer of the node. -/
structure InBuffer (node : List UInt8) : Prop where
  header : 12 ≤ node.length
  entry : ∀ index ∈ entriesInside node, entryOffset index + 12 ≤ node.length

/-- What the format says of the depths of the nodes that the search comes to. A block without the
magic number is no node, and the search ends there. -/
structure Falls (root : List UInt8) : Prop where
  shallow : readLe16 root 0 = extentMagic → nodeDepth root ≤ 5
  falls : ∀ {level node child}, fs.nodeAt volume logical level root = some node →
    fs.childNode volume logical node = some child → readLe16 child 0 = extentMagic →
      nodeDepth child < nodeDepth node

variable {fs volume logical} {root child : List UInt8} {level levels : Nat}

theorem extentSearch_succ : fs.extentSearch (levels + 1) root logical volume =
    match fs.childNode volume logical root with
    | some child => fs.extentSearch levels child logical volume
    | none => fs.extentSearch 1 root logical volume := by
  rw [childNode, extentSearch]
  by_cases magic : readLe16 root 0 ≠ extentMagic
  · simp [magic, extentSearch]
  by_cases leaf : nodeDepth root = 0
  · simp [leaf, extentSearch]
  simp only [magic, leaf, or_self, if_false, extentSearch]
  cases childBlock root logical with
  | none => rfl
  | some child =>
    by_cases inside : child * fs.blockSize + fs.blockSize ≤ volume.size
    · have read := readBlock_ok inside
      simp only [Procedure.bind_of_ok read, Option.bind_some, read]
      rfl
    · have read : fs.readBlock child volume = (.error .eio, volume) :=
        Prod.ext (if_neg inside) rfl
      simp only [Procedure.bind_run, Option.bind_some, read]
      rfl

theorem endsBefore_of_none (unvisited : fs.nodeAt volume logical levels root = none) :
    fs.EndsBefore volume logical root levels := by
  refine ⟨unvisited, fun more => ?_⟩
  induction levels generalizing root with
  | zero => cases unvisited
  | succ levels induction =>
    have one := @extentSearch_succ fs volume logical root (levels + more)
    have two := @extentSearch_succ fs volume logical root levels
    rw [add_right_comm, one, two]
    rw [nodeAt] at unvisited
    cases next : fs.childNode volume logical root with
    | none => rfl
    | some child =>
      rw [next] at unvisited
      exact induction unvisited

theorem inBuffer {node : List UInt8} (large : 12 ≤ root.length)
    (visited : fs.nodeAt volume logical level root = some node) : InBuffer node := by
  induction level generalizing root with
  | zero =>
    cases visited
    exact ⟨large, fun index member => by simpa using List.mem_takeWhile_imp member⟩
  | succ level induction =>
    rcases Option.bind_eq_some_iff.mp visited with ⟨child, next, visited⟩
    refine induction ?_ visited
    rw [childNode] at next
    split at next
    · cases next
    rcases Option.bind_eq_some_iff.mp next with ⟨block, _, read⟩
    rw [readBlock, readBytesAt_run] at read
    split at read
    · cases read
      have size := fs.blockSize_bounds.1
      rw [length_load]
      omega
    · cases read

theorem inner_of_childNode (next : fs.childNode volume logical root = some child) :
    readLe16 root 0 = extentMagic ∧ 0 < nodeDepth root := by
  rw [childNode] at next
  split at next
  · cases next
  · omega

theorem Falls.below (falls : fs.Falls volume logical root)
    (next : fs.childNode volume logical root = some child) : fs.Falls volume logical child := by
  have visited {level : Nat} : fs.nodeAt volume logical (level + 1) root =
      fs.nodeAt volume logical level child := by
    rw [nodeAt, next, Option.bind_some]
  refine ⟨fun magic => ?_, fun {level node after} found => falls.falls (visited.trans found)⟩
  have shallow := falls.shallow (inner_of_childNode next).1
  have smaller := @Falls.falls _ _ _ _ falls 0 root child rfl next magic
  omega

theorem unvisited_of_falls (falls : fs.Falls volume logical root) (positive : 0 < levels)
    (deep : readLe16 root 0 = extentMagic → nodeDepth root < levels) :
    fs.nodeAt volume logical levels root = none := by
  induction levels generalizing root with
  | zero => omega
  | succ levels induction =>
    rw [nodeAt]
    cases next : fs.childNode volume logical root with
    | none => rfl
    | some child =>
      have inner := inner_of_childNode next
      have deep := deep inner.1
      refine induction (falls.below next) (by omega) fun magic => ?_
      have smaller := @Falls.falls _ _ _ _ falls 0 root child rfl next magic
      omega

theorem falls_of_leaf (leaf : nodeDepth root = 0) : fs.Falls volume logical root := by
  refine ⟨fun _ => by omega, fun {level node child} visited next => ?_⟩
  have none : fs.childNode volume logical root = none := if_pos (.inr leaf)
  cases level with
  | zero =>
    cases visited
    cases none.symm.trans next
  | succ level =>
    rw [nodeAt, none] at visited
    cases visited

theorem falls_of_child (next : fs.childNode volume logical root = some child)
    (below : fs.Falls volume logical child) (shallow : nodeDepth root ≤ 5)
    (smaller : nodeDepth child < nodeDepth root) : fs.Falls volume logical root := by
  refine ⟨fun _ => shallow, fun {level node after} visited found => ?_⟩
  cases level with
  | zero =>
    cases visited
    cases next.symm.trans found
    exact fun _ => smaller
  | succ level =>
    rw [nodeAt, next] at visited
    exact below.falls visited found

/-- A node of depth one with block 5 as its only child. -/
def circle : List UInt8 :=
  le16 extentMagic ++ le16 1 ++ le16 4 ++ le16 1 ++ le32 0 ++ le32 0 ++ le32 5 ++ le32 0

def circleInode : Inode :=
  Inode.setIBlock ⟨List.replicate 160 0, List.length_replicate⟩ circle

/-- The child of the node in block 5 is block 5. -/
def circleVolume : Volume := ⟨store (fun _ => 0) 5120 circle, 8192, none⟩

/-- A leaf in block 5 that maps the logical blocks 0 to 2 to the blocks 7 to 9. -/
def leafVolume : Volume :=
  ⟨store (fun _ => 0) 5120 (le16 extentMagic ++ le16 1 ++ le16 4 ++ le16 0 ++ le32 0 ++ le32 0 ++
    le16 3 ++ le16 0 ++ le32 7), 16384, none⟩

end Ext4Fs

end Qunix.Fs.Ext4
