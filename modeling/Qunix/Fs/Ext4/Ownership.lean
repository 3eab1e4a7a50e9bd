import Qunix.Fs.Ext4.File
import Qunix.Fs.Ext4.InodeAllocation

/-! # The owners of blocks

Every block that the map of a live inode leads to has one owner: an inode and a place in
its file, or an inode whose map is read from the block.
-/

namespace Qunix.Fs.Ext4

open Foundation Bytes FlatArray

/-- A symbolic link that keeps its target where other inodes have their block map. -/
def Inode.FastSymlink (self : Inode) : Prop :=
  self.mode / 4096 % 16 = 10 ∧ self.hasExtents = false ∧ self.size ≤ 60

instance (self : Inode) : Decidable self.FastSymlink :=
  inferInstanceAs (Decidable (_ ∧ _ ∧ _))

theorem Inode.Agrees.fastSymlink {first second : Inode} (agrees : first.Agrees second) :
    first.FastSymlink ↔ second.FastSymlink := by
  rw [Inode.FastSymlink, Inode.FastSymlink, agrees.mode, agrees.hasExtents, agrees.size]

/-- The owner of a block: a place in the file of an inode, or the map of the inode. -/
structure Holder where
  ino : Nat
  logical : Option Nat
deriving DecidableEq

namespace Ext4Fs

variable {fs : Ext4Fs} {layout : fs.Layout} {owner : Nat → Option Holder}
  {volume next start : Volume}
  {inode : Inode} {ino : Nat} {Changed : Nat → Prop}

variable (fs) in
/-- What lies behind the single indirect table of a map is read from these blocks only. -/
def DependsBehind (pointers : Nat → Prop) (inode : Inode) (volume : Volume) : Prop :=
  ∀ other, fs.Changes (fun block => ¬pointers block) volume other → ∀ logical,
    12 + fs.blockSize / 4 ≤ logical →
      fs.getBlock inode logical other = ((fs.getBlock inode logical volume).1, other)

variable (fs) in
/-- The map of an inode leads to blocks that the inode owns. Without extents its single
indirect table is one of them and has no part in the map behind it. -/
structure OwnedMap (owner : Nat → Option Holder) (ino : Nat) (inode : Inode)
    (volume : Volume) : Prop where
  few : inode.hasExtents = true → readLe16 inode.iBlock 0 = extentMagic →
    entryCount inode.iBlock ≤ 4
  depends : fs.Depends (fun block => owner block = some ⟨ino, none⟩) inode volume
  owned : ∀ logical phys, (fs.getBlock inode logical volume).1 = .ok (some phys) →
    owner phys = some ⟨ino, some logical⟩
  table : inode.hasExtents = false → inode.blockPointer 12 ≠ 0 →
    owner (inode.blockPointer 12) = some ⟨ino, none⟩
  behind : inode.hasExtents = false → fs.DependsBehind
    (fun block => owner block = some ⟨ino, none⟩ ∧ block ≠ inode.blockPointer 12) inode volume

/-- Blocks with an owner hold data and are marked, and live inodes own what they map. -/
structure Owned (layout : fs.Layout) (owner : Nat → Option Holder) (volume : Volume) : Prop where
  formatted : Formatted layout volume
  used : ∀ block holder, owner block = some holder →
    layout.kind block = .data ∧ fs.marked volume block = true
  maps : ∀ ino, layout.Live volume ino → ¬(layout.inodeAt volume ino).FastSymlink →
    fs.OwnedMap owner ino (layout.inodeAt volume ino) volume

/-! ## Maps -/

section

variable (map : fs.OwnedMap owner ino inode volume)

include map

theorem OwnedMap.getBlock_run (logical : Nat) :
    fs.getBlock inode logical volume = ((fs.getBlock inode logical volume).1, volume) :=
  map.depends volume Changes.refl logical

theorem OwnedMap.of_changes (changes : fs.Changes Changed volume next)
    (apart : ∀ block, Changed block → owner block ≠ some ⟨ino, none⟩) :
    fs.OwnedMap owner ino inode next := by
  have away := changes.mono apart
  have same : ∀ logical,
      (fs.getBlock inode logical next).1 = (fs.getBlock inode logical volume).1 := by
    intro logical
    rw [map.depends next away logical]
  refine ⟨map.few, ?_, ?_, map.table, ?_⟩
  · intro other later logical
    rw [same]
    exact map.depends other (away.trans later) logical
  · intro logical phys found
    rw [same] at found
    exact map.owned logical phys found
  · intro indirect other later logical high
    rw [same]
    refine map.behind indirect other (Changes.trans (away.mono ?_) later) logical high
    exact fun _ notPointer isPointer => notPointer isPointer.1

theorem OwnedMap.congr {other : Inode}
    (flags : other.hasExtents = inode.hasExtents) (blocks : other.iBlock = inode.iBlock) :
    fs.OwnedMap owner ino other volume := by
  have same := @getBlock_congr fs other inode flags blocks
  have pointer : other.blockPointer 12 = inode.blockPointer 12 := by
    rw [other.blockPointer_iBlock (by decide), blocks, inode.blockPointer_iBlock (by decide)]
  refine ⟨?_, ?_, ?_, ?_, ?_⟩
  · rw [flags, blocks]
    exact map.few
  · intro later changes logical
    rw [same]
    exact map.depends later changes logical
  · intro logical phys
    rw [same]
    exact map.owned logical phys
  · rw [flags, pointer]
    exact map.table
  · rw [flags, pointer]
    intro indirect later changes logical high
    rw [same]
    exact map.behind indirect later changes logical high

theorem OwnedMap.mono {wider : Nat → Option Holder}
    (kept : ∀ block holder, holder.ino = ino → owner block = some holder →
      wider block = some holder) :
    fs.OwnedMap wider ino inode volume := by
  refine ⟨map.few, ?_, ?_, ?_, ?_⟩
  · intro other changes logical
    apply map.depends other (changes.mono ?_)
    intro block notPointer isPointer
    exact notPointer (kept block _ rfl isPointer)
  · intro logical phys found
    exact kept phys _ rfl (map.owned logical phys found)
  · intro indirect present
    exact kept _ _ rfl (map.table indirect present)
  · intro indirect other changes
    apply map.behind indirect other (changes.mono ?_)
    intro block notPointer isPointer
    exact notPointer ⟨kept block _ rfl isPointer.1, isPointer.2⟩

end

/-! ## Changes of the volume -/

theorem Layout.inodeAt_changes (layout : fs.Layout) (changes : fs.Changes Changed volume next)
    (apart : ∀ block group, Changed block → layout.kind block ≠ .inodeTable group)
    (inTable : fs.InTable ino) : layout.inodeAt next ino = layout.inodeAt volume ino := by
  have same : load next.bytes (layout.record ino) fs.inodeSize =
      load volume.bytes (layout.record ino) fs.inodeSize := by
    apply load_congr
    intro offset inside
    apply changes.bytes
    intro changed
    exact apart _ _ changed (layout.record_kind inTable inside)
  simp only [Layout.inodeAt, same]

theorem Layout.live_changes (layout : fs.Layout) (changes : fs.Changes Changed volume next)
    (apart : ∀ block group, Changed block → layout.kind block ≠ .inodeBitmap group) :
    layout.Live next ino ↔ layout.Live volume ino := by
  apply and_congr_right
  intro inTable
  have same : layout.inodeBitmapOf next ((ino - 1) / fs.inodesPerGroup) =
      layout.inodeBitmapOf volume ((ino - 1) / fs.inodesPerGroup) := by
    refine @Changes.load_block fs _ _ _ changes _ ?_ 0 fs.blockSize (by omega)
    intro changed
    exact apart _ _ changed (layout.inodeBitmaps _ inTable.2).1
  rw [same]

variable {phys block : Nat}

theorem Owned.not_accounts (owned : Owned layout owner volume) {holder : Holder}
    (isOwner : owner block = some holder) : ¬layout.Accounts block :=
  layout.data_not_accounts (owned.used block holder isOwner).1

/-- The block is no part of an inode table or an inode bitmap. -/
def Layout.OffInodes (layout : fs.Layout) (block : Nat) : Prop :=
  ∀ group, layout.kind block ≠ .inodeTable group ∧ layout.kind block ≠ .inodeBitmap group

theorem Layout.data_offInodes (layout : fs.Layout) (isData : layout.kind block = .data) :
    layout.OffInodes block := by
  intro group
  rw [isData]
  exact ⟨nofun, nofun⟩

theorem Layout.accounts_offInodes (layout : fs.Layout) (accounts : layout.Accounts block) :
    layout.OffInodes block := by
  intro group
  rcases accounts with ⟨other, reserved | bitmap⟩
  · rw [reserved]
    exact ⟨nofun, nofun⟩
  · rw [bitmap]
    exact ⟨nofun, nofun⟩

theorem Owned.table_unowned (owned : ∀ block holder, owner block = some holder →
      layout.kind block = .data ∧ fs.marked volume block = true) {group : Nat}
    (isTable : layout.kind block = .inodeTable group) (holder : Holder) :
    owner block ≠ some holder := by
  intro isOwner
  rw [(owned block holder isOwner).1] at isTable
  cases isTable

theorem Owned.of_inode (formatted : Formatted layout volume)
    (used : ∀ block holder, owner block = some holder →
      layout.kind block = .data ∧ fs.marked volume block = true)
    (others : ∀ other, other ≠ ino → layout.Live volume other →
      ¬(layout.inodeAt volume other).FastSymlink →
        fs.OwnedMap owner other (layout.inodeAt volume other) volume) (inTable : fs.InTable ino)
    (map : layout.Live volume ino → ¬inode.FastSymlink → fs.OwnedMap owner ino inode volume) :
    Owned layout owner (layout.withInode volume ino inode) := by
  have changes := layout.changes_withInode volume inTable inode
  rcases formatted.withInode inTable inode with ⟨stays, bitmaps⟩
  refine ⟨stays, ?_, ?_⟩
  · intro block holder isOwner
    rw [layout.marked_congr (used block holder isOwner).1 bitmaps]
    exact used block holder isOwner
  · intro other live mapped
    rw [layout.live_changes changes (by
      intro block group isTable
      rw [isTable]
      exact fun same => by cases same)] at live
    by_cases same : other = ino
    · subst same
      have agrees := layout.inodeAt_self volume other inode
      rw [agrees.fastSymlink] at mapped
      exact ((map live mapped).of_changes changes fun block isTable =>
        Owned.table_unowned used isTable _).congr agrees.hasExtents agrees.iBlock
    · rw [layout.inodeAt_withInode volume inTable live.1 same] at mapped ⊢
      exact (others other same live mapped).of_changes changes fun block isTable =>
        Owned.table_unowned used isTable _

theorem Owned.withInode (owned : Owned layout owner volume) (inTable : fs.InTable ino)
    (map : layout.Live volume ino → ¬inode.FastSymlink → fs.OwnedMap owner ino inode volume) :
    Owned layout owner (layout.withInode volume ino inode) :=
  Owned.of_inode owned.formatted owned.used (fun other _ => owned.maps other) inTable map

/-! ## Other inodes -/

/-- The other inodes are as at the start, and no block has become free. -/
structure Beside (layout : fs.Layout) (start : Volume) (ino : Nat) (volume : Volume) : Prop where
  others : ∀ other, other ≠ ino → (layout.Live volume other ↔ layout.Live start other) ∧
    (fs.InTable other → layout.inodeAt volume other = layout.inodeAt start other)
  taken : ∀ block, layout.kind block = .data → fs.marked volume block = false →
    fs.marked start block = false

theorem Beside.refl : Beside layout volume ino volume :=
  ⟨fun _ _ => ⟨Iff.rfl, fun _ => rfl⟩, fun _ _ free => free⟩

theorem Beside.of_changes (beside : Beside layout start ino volume)
    (changes : fs.Changes Changed volume next)
    (apart : ∀ block, Changed block → layout.OffInodes block)
    (kept : ∀ block, layout.kind block = .data → fs.marked next block = false →
      fs.marked volume block = false) :
    Beside layout start ino next := by
  refine ⟨?_, fun block isData free => beside.taken block isData (kept block isData free)⟩
  intro other different
  rw [layout.live_changes changes fun block group changed => (apart block changed group).2]
  refine ⟨(beside.others other different).1, ?_⟩
  intro inTable
  rw [layout.inodeAt_changes changes (fun block group changed => (apart block changed group).1)
    inTable]
  exact (beside.others other different).2 inTable

theorem Beside.withInode (beside : Beside layout start ino volume)
    (formatted : Formatted layout volume) (inTable : fs.InTable ino)
    (inode : Inode) : Beside layout start ino (layout.withInode volume ino inode) := by
  refine ⟨?_, ?_⟩
  · intro other different
    rw [layout.live_changes (layout.changes_withInode volume inTable inode) (by
      intro block group isTable
      rw [isTable]
      exact fun same => by cases same)]
    refine ⟨(beside.others other different).1, ?_⟩
    intro otherInTable
    rw [layout.inodeAt_withInode volume inTable otherInTable different]
    exact (beside.others other different).2 otherInTable
  · intro block isData free
    rw [layout.marked_congr isData (formatted.withInode inTable inode).2] at free
    exact beside.taken block isData free

/-! ## New blocks -/

theorem Owned.unowned (owned : Owned layout owner volume) (isFree : fs.marked volume phys = false) :
    owner phys = none := by
  cases holder : owner phys with
  | none => rfl
  | some holder' =>
    rw [(owned.used phys holder' holder).2] at isFree
    cases isFree

/-- A block that is marked and that nobody owns. -/
structure Spare (layout : fs.Layout) (owner : Nat → Option Holder) (phys : Nat)
    (volume : Volume) : Prop where
  isData : layout.kind phys = .data
  isMarked : fs.marked volume phys = true
  unowned : owner phys = none

theorem Spare.kept (spare : Spare layout owner phys volume) {holder other : Holder}
    (isOwner : owner block = some other) :
    Function.update owner phys (some holder) block = some other := by
  rw [Function.update_of_ne, isOwner]
  rintro rfl
  rw [spare.unowned] at isOwner
  cases isOwner

theorem Owned.grant (owned : Owned layout owner volume) (spare : Spare layout owner phys volume)
    (holder : Holder) : Owned layout (Function.update owner phys (some holder)) volume := by
  refine ⟨owned.formatted, ?_, ?_⟩
  · intro block other isOwner
    by_cases same : block = phys
    · rw [same]
      exact ⟨spare.isData, spare.isMarked⟩
    · rw [Function.update_of_ne same] at isOwner
      exact owned.used block other isOwner
  · intro other live mapped
    exact (owned.maps other live mapped).mono fun block _ _ => spare.kept

/-- Free blocks have numbers of 32 bits. -/
def Layout.Low (layout : fs.Layout) (volume : Volume) : Prop :=
  ∀ block, layout.kind block = .data → fs.marked volume block = false → block < 4294967296

/-- A map that can get new blocks. Without extents it has words of 32 bits for them. -/
def Layout.Growable (layout : fs.Layout) (volume : Volume) (inode : Inode) : Prop :=
  inode.hasExtents = true ∨ layout.Low volume

/-! ## Procedures on one inode -/

def Tidy (layout : fs.Layout) (volume : Volume) : Prop := ∃ owner, Owned layout owner volume

/-- An inode in memory maps blocks that it owns, the other inodes are as at the start. A map
without extents is on the disk as it is in memory. -/
structure Held (layout : fs.Layout) (start : Volume) (ino : Nat) (inode : Inode)
    (owner : Nat → Option Holder) (volume : Volume) : Prop where
  inTable : fs.InTable ino
  owned : Owned layout owner volume
  map : fs.OwnedMap owner ino inode volume
  beside : Beside layout start ino volume
  synced : inode.hasExtents = false → (layout.inodeAt volume ino).hasExtents = false ∧
    (layout.inodeAt volume ino).iBlock = inode.iBlock

def Opened (layout : fs.Layout) (start : Volume) (ino : Nat) (inode : Inode)
    (volume : Volume) : Prop :=
  ∃ owner, Held layout start ino inode owner volume

/-- The inode owns a block as a part of its file. -/
def OpenedAt (layout : fs.Layout) (start : Volume) (ino phys : Nat) (inode : Inode)
    (volume : Volume) : Prop :=
  ∃ owner logical, Held layout start ino inode owner volume ∧
    owner phys = some ⟨ino, some logical⟩

theorem Opened.tidy (opened : Opened layout start ino inode volume) : Tidy layout volume := by
  rcases opened with ⟨owner, held⟩
  exact ⟨owner, held.owned⟩

theorem Opened.beside (opened : Opened layout start ino inode volume) :
    Beside layout start ino volume := by
  rcases opened with ⟨owner, held⟩
  exact held.beside

theorem OpenedAt.opened (opened : OpenedAt layout start ino phys inode volume) :
    Opened layout start ino inode volume := by
  rcases opened with ⟨owner, _, held, _⟩
  exact ⟨owner, held⟩

section

variable (held : Held layout start ino inode owner volume)
  (changes : fs.Changes Changed volume next) (formatted : Formatted layout next)
  (marks : ∀ block, layout.kind block = .data → fs.marked volume block = true →
    fs.marked next block = true)
  (apart : ∀ block, Changed block → layout.OffInodes block)

include held changes formatted marks apart

theorem Held.of_maps (map : fs.OwnedMap owner ino inode next)
    (maps : ∀ other, fs.OwnedMap owner other (layout.inodeAt volume other) volume →
      fs.OwnedMap owner other (layout.inodeAt volume other) next) :
    Held layout start ino inode owner next := by
  have same : ∀ {other}, fs.InTable other → _ = layout.inodeAt volume other :=
    layout.inodeAt_changes changes fun block group changed => (apart block changed group).1
  refine ⟨held.inTable, ⟨formatted, ?_, ?_⟩, map, held.beside.of_changes changes apart ?_, ?_⟩
  · intro block holder isOwner
    have used := held.owned.used block holder isOwner
    exact ⟨used.1, marks block used.1 used.2⟩
  · intro other live
    rw [layout.live_changes changes fun block group changed => (apart block changed group).2]
      at live
    rw [same live.1]
    exact fun mapped => maps other (held.owned.maps other live mapped)
  · intro block isData free
    by_contra marked
    rw [marks block isData (Bool.eq_true_of_not_eq_false marked)] at free
    cases free
  · rw [same held.inTable]
    exact held.synced

/-- Blocks that are no part of a map may change. -/
theorem Held.of_changes
    (notPointer : ∀ block ino, Changed block → owner block ≠ some ⟨ino, none⟩) :
    Held layout start ino inode owner next := by
  apply held.of_maps changes formatted marks apart
  · exact held.map.of_changes changes fun block => notPointer block ino
  · exact fun other map => map.of_changes changes fun block => notPointer block other

end

theorem Held.grant (held : Held layout start ino inode owner volume)
    (spare : Spare layout owner phys volume) (holder : Holder) :
    Held layout start ino inode (Function.update owner phys (some holder)) volume :=
  ⟨held.inTable, held.owned.grant spare holder, held.map.mono fun _ _ _ => spare.kept,
    held.beside, held.synced⟩

/-- The inode is written back with another map. -/
theorem Held.withInode (owned : Owned layout owner volume)
    (map : fs.OwnedMap owner ino inode volume) (beside : Beside layout start ino volume)
    (inTable : fs.InTable ino) :
    Held layout start ino inode owner (layout.withInode volume ino inode) := by
  have agrees := layout.inodeAt_self volume ino inode
  refine ⟨inTable, owned.withInode inTable fun _ _ => map,
    map.of_changes (layout.changes_withInode volume inTable inode) ?_,
    beside.withInode owned.formatted inTable inode,
    fun indirect => ⟨agrees.hasExtents.trans indirect, agrees.iBlock⟩⟩
  exact fun block isTable => Owned.table_unowned owned.used isTable _

/-- The contents of a block of the file, or of one that nobody owns, may change. -/
theorem Held.of_contents (held : Held layout start ino inode owner volume)
    (isData : layout.kind phys = .data) (notPointer : ∀ other, owner phys ≠ some ⟨other, none⟩)
    (changes : fs.Changes (· = phys) volume next) :
    Held layout start ino inode owner next ∧ fs.marked next phys = fs.marked volume phys := by
  rcases held.owned.formatted.of_contents changes (by rintro block rfl; exact .inl isData) with
    ⟨formatted, marks⟩
  refine ⟨held.of_changes changes formatted ?_ ?_ ?_, marks phys isData⟩
  · intro block isData marked
    rw [marks block isData, marked]
  · rintro block rfl
    exact layout.data_offInodes isData
  · rintro block other rfl
    exact notPointer other

theorem OpenedAt.of_changes (opened : OpenedAt layout start ino phys inode volume)
    (changes : fs.Changes (· = phys) volume next) : Opened layout start ino inode next := by
  rcases opened with ⟨owner, logical, held, isOwner⟩
  refine ⟨owner, (held.of_contents (held.owned.used phys _ isOwner).1 ?_ changes).1⟩
  intro other isPointer
  rw [isOwner] at isPointer
  cases isPointer

theorem OpenedAt.closed (opened : OpenedAt layout start ino phys inode volume) :
    volume.current = none := by
  rcases opened with ⟨owner, _, held, _⟩
  exact held.owned.formatted.closed

theorem Opened.found (opened : Opened layout start ino inode volume) {logical : Nat}
    (found : fs.getBlock inode logical volume = (.ok (some phys), next)) :
    next = volume ∧ OpenedAt layout start ino phys inode volume := by
  rcases opened with ⟨owner, held⟩
  rw [held.map.getBlock_run logical] at found
  have answer := congrArg Prod.fst found
  exact ⟨(congrArg Prod.snd found).symm, owner, logical, held,
    held.map.owned logical phys answer⟩

theorem Opened.unchanged (opened : Opened layout start ino inode volume) (logical : Nat) :
    (fs.getBlock inode logical volume).2 = volume := by
  rcases opened with ⟨owner, held⟩
  rw [held.map.getBlock_run logical]

end Ext4Fs

end Qunix.Fs.Ext4
