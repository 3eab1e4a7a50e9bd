import Qunix.Fs.Ext4.FileRuns
import Qunix.Fs.Ext4.OwnershipCalls

/-! # Owners of blocks over whole runs

Creating, writing, lengthening and removing files keeps every block with its one owner.
A truncation that frees a mapped block does not.
-/

namespace Qunix.Fs.Ext4

open Foundation Bytes FlatArray Procedure Inode Triple

/-! ## New inodes -/

namespace Inode

variable {self : Inode} (count : Nat)

@[simp] theorem iBlock_setLinksCount :
    (self.setLinksCount count).iBlock = self.iBlock := by
  rw [setLinksCount, iBlock_patch (by simp)]

@[simp] theorem hasExtents_setLinksCount :
    (self.setLinksCount count).hasExtents = self.hasExtents := by
  rw [hasExtents, hasExtents, flags, flags, setLinksCount, readLe32_patch (by simp)]

@[simp] theorem size_setLinksCount : (self.setLinksCount count).size = self.size := by
  rw [size, size, setLinksCount, readLe32_patch (by simp), readLe32_patch (by simp)]

@[simp] theorem mode_setLinksCount : (self.setLinksCount count).mode = self.mode := by
  rw [mode, mode, setLinksCount, readLe16_patch (by simp)]

theorem linksCount_drop (some : 2 ≤ self.linksCount) :
    (self.setLinksCount (self.linksCount - 1)).linksCount ≠ 0 := by
  have bound := readLe16_lt self.raw 26
  rw [← linksCount] at bound
  rw [linksCount, setLinksCount, readLe16_patch_same]
  omega

theorem fastSymlink_setLinksCount :
    (self.setLinksCount count).FastSymlink ↔ self.FastSymlink := by
  simp [FastSymlink]

end Inode

theorem hasExtents_newInode (mode size flags : Nat) (root : List UInt8) :
    (newInode mode size flags root).hasExtents = (flags % 4294967296).testBit 19 := by
  rw [newInode, hasExtents_setIBlock, hasExtents_setLinksCount, Inode.hasExtents,
    Inode.flags, readLe32_patch_same]

theorem mode_newInode (mode size flags : Nat) (root : List UInt8) :
    (newInode mode size flags root).mode = mode % 65536 := by
  rw [newInode, Inode.mode, Inode.setIBlock, readLe16_patch (by simp), Inode.setLinksCount,
    readLe16_patch (by simp), readLe16_patch (by simp), readLe16_patch (by simp),
    readLe16_patch_same]

theorem size_newInode (mode size flags : Nat) (root : List UInt8) :
    (newInode mode size flags root).size = size % 4294967296 := by
  have zeros : readLe32 (List.replicate 160 0) 108 = 0 := by decide
  rw [newInode, size_setIBlock, size_setLinksCount, Inode.size,
    readLe32_patch (by simp), readLe32_patch_same, readLe32_patch (by simp),
    readLe32_patch (by simp), readLe32_patch (by simp), zeros, Nat.add_zero]

theorem iBlock_newInode (mode size flags : Nat) :
    (newInode mode size flags emptyRoot).iBlock = resize 60 emptyRoot := by
  have twice : resize 60 (resize 60 emptyRoot) = resize 60 emptyRoot := by decide +kernel
  have padded : ∀ inode : Inode, (inode.setIBlock emptyRoot).iBlock =
      (inode.setIBlock (resize 60 emptyRoot)).iBlock := by
    intro inode
    simp only [Inode.iBlock, Inode.setIBlock, Inode.patch, twice]
  rw [newInode, padded, iBlock_setIBlock (length_resize 60 _)]

theorem emptyRoot_leaf : Ext4Fs.Leaf (resize 60 emptyRoot) :=
  ⟨length_resize 60 _, by decide +kernel, by decide +kernel, by decide +kernel⟩

namespace Ext4Fs

variable {fs : Ext4Fs} {layout : fs.Layout} {owner : Nat → Option Holder}
  {volume next start : Volume} {inode : Inode} {ino : Nat}

theorem ownedMap_empty (mode size : Nat) :
    fs.OwnedMap owner ino (newInode mode size extentsFlag emptyRoot) volume := by
  have extents : (newInode mode size extentsFlag emptyRoot).hasExtents = true := by
    rw [hasExtents_newInode]
    decide
  have leaf : Leaf (newInode mode size extentsFlag emptyRoot).iBlock := by
    exact emptyRoot_leaf
  have none : ∀ logical,
      leafSearch (newInode mode size extentsFlag emptyRoot).iBlock logical = none := by
    intro logical
    have count : entryCount (resize 60 emptyRoot) = 0 := by decide +kernel
    rw [leafSearch_eq leaf.whole leaf.few, iBlock_newInode, count]
    rfl
  refine ⟨fun _ _ => leaf.few, ?_, ?_, ?_, ?_⟩
  · intro other _ logical
    rw [getBlock_leaf extents leaf, getBlock_leaf extents leaf]
  · intro logical phys found
    rw [getBlock_leaf extents leaf, none] at found
    cases found
  all_goals
    rw [extents]
    nofun

theorem fastSymlink_newInode {target : List UInt8} (short : target.length ≤ 60) :
    (newInode 0xA1FF target.length 0 target).FastSymlink := by
  refine ⟨?_, ?_, ?_⟩
  · rw [mode_newInode]
  · rw [hasExtents_newInode]
    rfl
  · rw [size_newInode, Nat.mod_eq_of_lt (by omega)]
    exact short

theorem Layout.bits_kind (layout : fs.Layout) {block : Nat} (bits : layout.kind block = .reserved ∨
    ∃ group, layout.kind block = .inodeBitmap group) :
    (∀ group, layout.kind block ≠ .inodeTable group) ∧ layout.kind block ≠ .data := by
  rcases bits with reserved | ⟨group, bitmap⟩
  · simp [reserved]
  · simp [bitmap]

theorem Owned.of_newInode (owned : Owned layout owner volume) (inTable : fs.InTable ino)
    (bits : InodeBitsChange layout volume next) (lives : ∀ other, fs.InTable other →
      (layout.Live next other ↔ other = ino ∨ layout.Live volume other))
    (map : ¬inode.FastSymlink → fs.OwnedMap owner ino inode next) :
    Owned layout owner (layout.withInode next ino inode) ∧
      Beside layout volume ino (layout.withInode next ino inode) := by
  have used : ∀ block holder, owner block = some holder →
      layout.kind block = .data ∧ fs.marked next block = true := by
    intro block holder isOwner
    have before := owned.used block holder isOwner
    exact ⟨before.1, (bits.marks block before.1).trans before.2⟩
  have beside : Beside layout volume ino next := by
    refine ⟨?_, fun block isData free => (bits.marks block isData).symm.trans free⟩
    intro other different
    refine ⟨?_, layout.inodeAt_changes bits.changes fun _ group isBits =>
      (layout.bits_kind isBits).1 group⟩
    constructor
    · intro live
      exact ((lives other live.1).mp live).resolve_left different
    · intro live
      exact (lives other live.1).mpr (.inr live)
  refine ⟨Owned.of_inode bits.formatted used ?_ inTable fun _ => map,
    beside.withInode bits.formatted inTable inode⟩
  intro other different live mapped
  rcases beside.others other different with ⟨wasLive, same⟩
  rw [same live.1] at mapped ⊢
  apply (owned.maps other (wasLive.mp live) mapped).of_changes bits.changes
  intro block isBits isOwner
  exact (layout.bits_kind isBits).2 (owned.used block _ isOwner).1

/-! ## Removed inodes -/

/-- Blocks of one inode are being freed. -/
structure Freeing (layout : fs.Layout) (owner : Nat → Option Holder) (ino : Nat)
    (start volume : Volume) : Prop where
  formatted : Formatted layout volume
  changes : fs.Changes layout.Accounts start volume
  kept : ∀ block holder, owner block = some holder → holder.ino ≠ ino →
    fs.marked volume block = true

theorem Freeing.freeBlocks (owned : Owned layout owner start)
    (map : fs.OwnedMap owner ino inode start) (logicals : List Nat) :
    ∀ {volume : Volume}, Freeing layout owner ino start volume →
      ∃ next, fs.freeBlocks inode logicals volume = (.ok (), next) ∧
        Freeing layout owner ino start next := by
  induction logicals with
  | nil =>
    intro volume freeing
    exact ⟨volume, rfl, freeing⟩
  | cons logical rest induction =>
    intro volume freeing
    have found := map.depends volume (freeing.changes.mono fun block accounts isOwner =>
      owned.not_accounts isOwner accounts) logical
    rw [Ext4Fs.freeBlocks, bind_run, Procedure.attempt, found]
    dsimp only
    cases answer : (fs.getBlock inode logical start).1 with
    | error error => exact induction freeing
    | ok place =>
      cases place with
      | none => exact induction freeing
      | some phys =>
        have isOwner := map.owned logical phys answer
        rcases freeing.formatted.freeBlock (owned.used phys _ isOwner).1 with
          ⟨middle, group, freed, formatted, marks, changes⟩
        dsimp only
        rw [bind_run, Procedure.attempt, freed]
        refine induction ⟨formatted, freeing.changes.trans (changes.mono ?_), ?_⟩
        · exact fun block bookkeeping => ⟨group, bookkeeping⟩
        · intro block holder blockOwner other
          have different : block ≠ phys := by
            rintro rfl
            rw [isOwner] at blockOwner
            cases blockOwner
            exact other rfl
          rw [marks block (owned.used block holder blockOwner).1,
            decide_eq_true different]
          exact freeing.kept block holder blockOwner other

def without (owner : Nat → Option Holder) (ino : Nat) (block : Nat) : Option Holder :=
  (owner block).filter fun holder => holder.ino ≠ ino

theorem without_eq {block : Nat} {holder : Holder} :
    without owner ino block = some holder ↔ owner block = some holder ∧ holder.ino ≠ ino := by
  rw [without, Option.filter_eq_some_iff, decide_eq_true_iff]

theorem Freeing.freeInode (owned : Owned layout owner start) (inTable : fs.InTable ino)
    (freeing : Freeing layout owner ino start volume) :
    ∃ next, fs.freeInode ino volume = (.ok (), next) ∧ Tidy layout next := by
  rcases freeing.formatted.freeInode inTable with ⟨next, freed, bits, lives⟩
  refine ⟨next, freed, without owner ino, bits.formatted, ?_, ?_⟩
  · intro block holder isOwner
    rcases without_eq.mp isOwner with ⟨wasOwner, other⟩
    have isData := (owned.used block holder wasOwner).1
    exact ⟨isData, (bits.marks block isData).trans (freeing.kept block holder wasOwner other)⟩
  · intro other live mapped
    rcases (lives other live.1).mp live with ⟨different, wasLive⟩
    have table : layout.inodeAt next other = layout.inodeAt start other := by
      rw [layout.inodeAt_changes bits.changes
          (fun _ group isBits => (layout.bits_kind isBits).1 group) live.1,
        layout.inodeAt_changes freeing.changes
          (fun block group accounts => (layout.accounts_offInodes accounts group).1) live.1]
    rw [layout.live_changes freeing.changes fun block group accounts =>
      (layout.accounts_offInodes accounts group).2] at wasLive
    rw [table] at mapped ⊢
    have map := (owned.maps other wasLive mapped).of_changes freeing.changes
      fun block accounts isOwner => owned.not_accounts isOwner accounts
    have later := map.of_changes bits.changes fun block isBits isOwner =>
      (layout.bits_kind isBits).2 (owned.used block _ isOwner).1
    apply later.mono
    rintro block holder rfl isOwner
    exact without_eq.mpr ⟨isOwner, different⟩

theorem Owned.release (owned : Owned layout owner volume) (inTable : fs.InTable ino)
    (map : inode.linksCount = 0 → fs.OwnedMap owner ino inode volume) :
    Tidy layout (fs.release ino inode volume).2 := by
  by_cases last : inode.linksCount = 0
  · rcases Freeing.freeBlocks owned (map last) (List.range (fs.blocksFor inode.size))
      ⟨owned.formatted, Changes.refl, fun block holder isOwner _ =>
        (owned.used block holder isOwner).2⟩ with ⟨freed, blocks, freeing⟩
    rcases freeing.freeInode owned inTable with ⟨final, removed, finalTidy⟩
    have run : fs.release ino inode volume = (.ok (), final) := by
      rw [Ext4Fs.release, if_pos last, bind_ok]
      exact ⟨(), freed, blocks, removed⟩
    rw [run]
    exact finalTidy
  · have run : fs.release ino inode volume = (.ok (), volume) := by
      rw [Ext4Fs.release, if_neg last, pure_run]
    rw [run]
    exact ⟨owner, owned⟩

/-- The inode is written back with other links. A fast symbolic link must not lose its
last one: the blocks freed then are those whose numbers its text spells. -/
theorem Tidy.relink (tidy : Tidy layout volume) (live : layout.Live volume ino)
    (flags : inode.hasExtents = (layout.inodeAt volume ino).hasExtents)
    (blocks : inode.iBlock = (layout.inodeAt volume ino).iBlock)
    (fast : inode.FastSymlink ↔ (layout.inodeAt volume ino).FastSymlink)
    (linked : inode.FastSymlink → inode.linksCount ≠ 0) :
    Tidy layout (fs.release ino inode (layout.withInode volume ino inode)).2 := by
  rcases tidy with ⟨owner, owned⟩
  have map : ¬inode.FastSymlink → fs.OwnedMap owner ino inode volume := by
    intro mapped
    rw [fast] at mapped
    exact (owned.maps ino live mapped).congr flags blocks
  apply (owned.withInode live.1 fun _ => map).release live.1
  intro last
  apply (map fun isFast => linked isFast last).of_changes
    (layout.changes_withInode volume live.1 inode)
  intro block isTable
  exact Owned.table_unowned owned.used isTable _

/-! ## Files -/

theorem Tidy.write (tidy : Tidy layout volume) (live : layout.Live volume ino)
    (mapped : ¬(layout.inodeAt volume ino).FastSymlink)
    (growable : layout.Growable volume (layout.inodeAt volume ino)) (data : List UInt8)
    (offset : Nat) :
    Tidy layout (fs.write ino data offset volume).2 := by
  rw [Ext4Fs.write, bind_of_ok (tidy.readInode live.1)]
  have triple : Triple (Opened layout volume ino (layout.inodeAt volume ino)) (do
      let _ ← fs.writeFile ino (layout.inodeAt volume ino) data offset
      pure ()) (fun _ => Tidy layout) (Tidy layout) :=
    bind (writeFile_owned growable data offset) fun _ =>
      pure fun _ both => both.1
  exact triple.either (tidy.opened live mapped) (fun _ _ stays => stays) fun _ stays => stays

theorem Tidy.truncate (tidy : Tidy layout volume) (live : layout.Live volume ino)
    (mapped : ¬(layout.inodeAt volume ino).FastSymlink) {size : Nat}
    (harmless : (layout.inodeAt volume ino).size < size ∨
      fs.FreesNothing (layout.inodeAt volume ino) volume size) :
    Tidy layout (fs.truncate ino size volume).2 := by
  rcases tidy with ⟨owner, owned⟩
  have map := owned.maps ino live mapped
  have freed := freeTail_unmapped map.getBlock_run harmless
  rw [owned.formatted.truncate_run live.1 freed]
  exact ⟨owner, owned.withInode live.1 fun _ _ =>
    map.congr (hasExtents_setSize size) (iBlock_setSize size)⟩

/-! ## Directories -/

/-- A directory that can get a new block. -/
structure Layout.GrowingDir (layout : fs.Layout) (volume : Volume) (dirIno : Nat) : Prop where
  live : layout.Live volume dirIno
  isDir : (layout.inodeAt volume dirIno).isDir = true
  growable : layout.Growable volume (layout.inodeAt volume dirIno)

theorem not_fastSymlink_of_isDir (isDir : inode.isDir = true) : ¬inode.FastSymlink := by
  intro fast
  have directory : inode.mode / 4096 % 16 = 4 := of_decide_eq_true isDir
  have link := fast.1
  omega

variable {dirIno : Nat}

theorem Layout.GrowingDir.of_beside (directory : layout.GrowingDir start dirIno)
    (beside : Beside layout start ino volume) (different : dirIno ≠ ino) :
    layout.GrowingDir volume dirIno := by
  rcases beside.others dirIno different with ⟨lives, same⟩
  have kept := same directory.live.1
  refine ⟨lives.mpr directory.live, ?_, ?_⟩
  · rw [kept]
    exact directory.isDir
  · rw [kept]
    exact directory.growable.imp_right fun low block isData free =>
      low block isData (beside.taken block isData free)

theorem Tidy.enter (tidy : Tidy layout volume) (directory : layout.GrowingDir volume dirIno)
    (name : List UInt8) (fileType : UInt8) :
    Tidy layout ((do
      let dirInode ← fs.readInode dirIno
      let _ ← fs.dirAddEntry dirIno dirInode ino name fileType
      pure ino : Ext4M Nat) volume).2 := by
  rw [bind_of_ok (tidy.readInode directory.live.1)]
  have triple : Triple (Opened layout volume dirIno (layout.inodeAt volume dirIno)) (do
      let _ ← fs.dirAddEntry dirIno (layout.inodeAt volume dirIno) ino name fileType
      pure ino) (fun _ => Tidy layout) (Tidy layout) :=
    bind (dirAddEntry_owned directory.growable ino name fileType) fun _ =>
      pure fun _ both => both.1
  exact triple.either (tidy.opened directory.live (not_fastSymlink_of_isDir directory.isDir))
    (fun _ _ stays => stays) fun _ stays => stays

theorem Tidy.create (tidy : Tidy layout volume) (directory : layout.GrowingDir volume dirIno)
    (name : List UInt8) (mode : Nat) :
    Tidy layout (fs.create dirIno name mode volume).2 := by
  rcases tidy with ⟨owner, owned⟩
  rcases owned.formatted.allocInode with full | ⟨ino, next, taken, inTable, dead, bits, lives⟩
  · rw [Ext4Fs.create, bind_of_error full]
    exact ⟨owner, owned⟩
  rcases owned.of_newInode inTable bits lives fun _ =>
    ownedMap_empty (mode &&& 0x1FFF ||| 0x8000) 0 with ⟨entered, beside⟩
  have different : dirIno ≠ ino := by
    rintro rfl
    exact dead directory.live
  rw [Ext4Fs.create, bind_of_ok taken, bind_of_ok (bits.formatted.writeInode inTable _)]
  exact Tidy.enter ⟨owner, entered⟩ (directory.of_beside beside different) name 1

theorem Owned.linkInode (owned : Owned layout owner volume) (inTable : fs.InTable ino)
    {middle : Volume} (bits : InodeBitsChange layout volume middle)
    (lives : ∀ other, fs.InTable other →
      (layout.Live middle other ↔ other = ino ∨ layout.Live volume other)) (target : List UInt8) :
    match fs.linkInode ino target middle with
    | (.ok inode, next) => Formatted layout next ∧ Tidy layout (layout.withInode next ino inode) ∧
        Beside layout volume ino (layout.withInode next ino inode)
    | (.error _, next) => Tidy layout next := by
  rw [Ext4Fs.linkInode]
  by_cases short : target.length ≤ 60
  · rw [if_pos short]
    rcases @Owned.of_newInode fs layout owner volume middle
      (newInode 0xA1FF target.length 0 target) ino
      owned inTable bits lives (fun mapped => absurd (fastSymlink_newInode short) mapped) with
        ⟨entered, beside⟩
    exact ⟨bits.formatted, ⟨owner, entered⟩, beside⟩
  rcases owned.of_newInode inTable bits lives fun _ => ownedMap_empty 0xA1FF target.length with
    ⟨entered, beside⟩
  rw [if_neg short, bind_of_ok (bits.formatted.writeInode inTable _),
    bind_of_ok (entered.formatted.readInode inTable)]
  generalize isFirst : layout.withInode middle ino
    (newInode 0xA1FF target.length extentsFlag emptyRoot) = first at *
  have agrees : (layout.inodeAt first ino).Agrees
      (newInode 0xA1FF target.length extentsFlag emptyRoot) := by
    rw [← isFirst]
    exact layout.inodeAt_self middle ino _
  have extents : (layout.inodeAt first ino).hasExtents = true := by
    rw [agrees.hasExtents, hasExtents_newInode]
    decide
  have map : fs.OwnedMap owner ino (layout.inodeAt first ino) first :=
    (ownedMap_empty 0xA1FF target.length).congr agrees.hasExtents agrees.iBlock
  have indirect : (layout.inodeAt first ino).hasExtents ≠ false := by simp [extents]
  have written := writeFile_owned (.inl extents) target 0 first
    ⟨owner, inTable, entered, map, beside, fun isFalse => absurd isFalse indirect⟩
  split at written
  next result second done =>
    rcases written with ⟨⟨secondOwner, secondOwned⟩, secondBeside⟩
    rw [bind_of_ok done, secondOwned.formatted.readInode inTable]
    exact ⟨secondOwned.formatted, ⟨secondOwner, secondOwned.withInode inTable fun live mapped =>
      secondOwned.maps ino live mapped⟩, secondBeside.withInode secondOwned.formatted inTable _⟩
  next error second failed =>
    rw [bind_of_error failed]
    exact written

theorem Tidy.symlink (tidy : Tidy layout volume) (directory : layout.GrowingDir volume dirIno)
    (name target : List UInt8) :
    Tidy layout (fs.symlink dirIno name target volume).2 := by
  rcases tidy with ⟨owner, owned⟩
  rcases owned.formatted.allocInode with full | ⟨ino, middle, taken, inTable, dead, bits, lives⟩
  · rw [Ext4Fs.symlink, bind_of_error full]
    exact ⟨owner, owned⟩
  have linked := owned.linkInode inTable bits lives target
  rw [Ext4Fs.symlink, bind_of_ok taken]
  split at linked
  next inode next done =>
    rcases linked with ⟨formatted, entered, beside⟩
    have different : dirIno ≠ ino := by
      rintro rfl
      exact dead directory.live
    rw [bind_of_ok done, bind_of_ok (formatted.writeInode inTable inode)]
    exact entered.enter (directory.of_beside beside different) name 7
  next error next failed =>
    rw [bind_of_error failed]
    exact linked

/-! ## Removal -/

theorem Opened.dirReadBlocks_unchanged (opened : Opened layout start ino inode volume)
    (logicals : List Nat) :
    Triple (· = volume) (fs.dirReadBlocks inode logicals) (fun _ => (· = volume)) (· = volume) := by
  have getBlock : ∀ logical, Triple (· = volume) (fs.getBlock inode logical)
      (fun _ => (· = volume)) (· = volume) := by
    intro logical
    have unchanged := opened.unchanged logical
    apply of_runs
    · rintro _ rfl answer next done
      rw [done] at unchanged
      exact unchanged
    · rintro _ rfl error next done
      rw [done] at unchanged
      exact unchanged
  induction logicals with
  | nil => exact pure fun _ same => same
  | cons logical rest induction =>
    refine bind (getBlock logical) ?_
    intro answer
    cases answer with
    | none => exact induction
    | some phys =>
      refine bind (observe fun _ same => same) ?_
      intro block
      refine bind induction ?_
      intro later
      exact pure fun _ same => same

theorem Opened.dirLookupIno_unchanged (opened : Opened layout start ino inode volume)
    (name : List UInt8) : (fs.dirLookupIno inode name volume).2 = volume := by
  have triple : Triple (· = volume) (fs.dirLookupIno inode name) (fun _ => (· = volume))
      (· = volume) := by
    refine bind (opened.dirReadBlocks_unchanged _) ?_
    intro entries
    cases entries.find? fun entry => entry.name = name with
    | none => exact fail fun _ same => same
    | some entry => exact pure fun _ same => same
  exact triple.either rfl (fun _ _ same => same) fun _ same => same

theorem Tidy.unlink (tidy : Tidy layout volume) (live : layout.Live volume dirIno)
    (isDir : (layout.inodeAt volume dirIno).isDir = true) {name : List UInt8} (linked : ∀ child,
      (fs.dirLookupIno (layout.inodeAt volume dirIno) name volume).1 = .ok child →
        layout.Live volume child ∧ ((layout.inodeAt volume child).FastSymlink →
          2 ≤ (layout.inodeAt volume child).linksCount)) :
    Tidy layout (fs.unlink dirIno name volume).2 := by
  have opened := tidy.opened live (not_fastSymlink_of_isDir isDir)
  have unchanged := opened.dirLookupIno_unchanged name
  rw [Ext4Fs.unlink, bind_of_ok (tidy.readInode live.1)]
  cases found : fs.dirLookupIno (layout.inodeAt volume dirIno) name volume with
  | mk answer next =>
    rw [found] at unchanged linked
    have same : volume = next := unchanged.symm
    subst same
    cases answer with
    | error error =>
      rw [bind_of_error found]
      exact tidy
    | ok child =>
      rcases linked child rfl with ⟨childLive, links⟩
      rw [bind_of_ok found, bind_of_ok (tidy.readInode childLive.1)]
      by_cases childDir : (layout.inodeAt volume child).isDir = true
      · rw [if_pos childDir]
        exact tidy
      rw [if_neg childDir]
      have different : child ≠ dirIno := by
        rintro rfl
        exact childDir isDir
      have removed := dirRemoveInBlocks_owned name
        (List.range (fs.dirBlocks (layout.inodeAt volume dirIno).size)) volume opened
      split at removed
      next result second done =>
        rcases removed with ⟨secondTidy, beside⟩
        rcases beside.others child different with ⟨lives, same⟩
        have secondLive := lives.mpr childLive
        have kept := same childLive.1
        rw [dirRemoveEntry, bind_of_ok done]
        rcases secondTidy with ⟨owner, owned⟩
        rw [bind_of_ok (owned.formatted.writeInode childLive.1 _), ← kept]
        rw [← kept] at links
        apply Tidy.relink ⟨owner, owned⟩ secondLive (hasExtents_setLinksCount _)
          (iBlock_setLinksCount _) (fastSymlink_setLinksCount _)
        intro fast
        exact linksCount_drop
          (links ((fastSymlink_setLinksCount _).mp fast))
      next error second failed =>
        rw [dirRemoveEntry, bind_of_error failed]
        exact removed

/-! ## Runs -/

inductive NamespaceCall
  | create (dirIno : Nat) (name : List UInt8) (mode : Nat)
  | write (ino : Nat) (data : List UInt8) (offset : Nat)
  | truncate (ino size : Nat)
  | unlink (dirIno : Nat) (name : List UInt8)
  | symlink (dirIno : Nat) (name target : List UInt8)

variable (fs) in
def perform (volume : Volume) : NamespaceCall → Volume
  | .create dirIno name mode => (fs.create dirIno name mode volume).2
  | .write ino data offset => (fs.write ino data offset volume).2
  | .truncate ino size => (fs.truncate ino size volume).2
  | .unlink dirIno name => (fs.unlink dirIno name volume).2
  | .symlink dirIno name target => (fs.symlink dirIno name target volume).2

/-- What a call needs for its blocks to keep one owner each. -/
def OwningCall (layout : fs.Layout) (volume : Volume) : NamespaceCall → Prop
  | .create dirIno _ _ => layout.GrowingDir volume dirIno
  | .symlink dirIno _ _ => layout.GrowingDir volume dirIno
  | .write ino _ _ => layout.Live volume ino ∧ ¬(layout.inodeAt volume ino).FastSymlink ∧
      layout.Growable volume (layout.inodeAt volume ino)
  | .truncate ino size => layout.Live volume ino ∧ ¬(layout.inodeAt volume ino).FastSymlink ∧
      ((layout.inodeAt volume ino).size < size ∨
        fs.FreesNothing (layout.inodeAt volume ino) volume size)
  | .unlink dirIno name => layout.Live volume dirIno ∧
      (layout.inodeAt volume dirIno).isDir = true ∧ ∀ child,
        (fs.dirLookupIno (layout.inodeAt volume dirIno) name volume).1 = .ok child →
          layout.Live volume child ∧ ((layout.inodeAt volume child).FastSymlink →
            2 ≤ (layout.inodeAt volume child).linksCount)

theorem Tidy.perform (tidy : Tidy layout volume) {call : NamespaceCall}
    (owning : OwningCall layout volume call) : Tidy layout (fs.perform volume call) := by
  cases call with
  | create dirIno name mode => exact tidy.create owning name mode
  | write ino data offset => exact tidy.write owning.1 owning.2.1 owning.2.2 data offset
  | truncate ino size => exact tidy.truncate owning.1 owning.2.1 owning.2.2
  | unlink dirIno name => exact tidy.unlink owning.1 owning.2.1 owning.2.2
  | symlink dirIno name target => exact tidy.symlink owning name target

/-- Calls on the files of a volume that starts with owners for its blocks. -/
def namespaceSystem (layout : fs.Layout) : TransitionSystem Volume NamespaceCall where
  Initial := Tidy layout
  Step volume call next := OwningCall layout volume call ∧ next = fs.perform volume call

/-- A live inode has the block at a place of its file. -/
def Layout.Reaches (layout : fs.Layout) (volume : Volume) (ino logical block : Nat) : Prop :=
  layout.Live volume ino ∧ ¬(layout.inodeAt volume ino).FastSymlink ∧
    (fs.getBlock (layout.inodeAt volume ino) logical volume).1 = .ok (some block)

instance (layout : fs.Layout) (volume : Volume) (ino logical block : Nat) :
    Decidable (layout.Reaches volume ino logical block) :=
  inferInstanceAs (Decidable (_ ∧ _ ∧ _))

theorem Owned.reaches (owned : Owned layout owner volume) {logical block : Nat}
    (reaches : layout.Reaches volume ino logical block) :
    owner block = some ⟨ino, some logical⟩ :=
  (owned.maps ino reaches.1 reaches.2.1).owned logical block reaches.2.2

theorem namespaceSystem_tidy (reachable : (namespaceSystem layout).Reachable volume) :
    Tidy layout volume := by
  refine @TransitionSystem.Reachable.invariant _ _ _ (Tidy layout) ?_ ?_ _ reachable
  · intro volume starts
    exact starts
  · rintro volume call _ tidy ⟨owning, rfl⟩
    exact tidy.perform owning

/-! ## A volume with two empty files -/

def twoBits : Volume :=
  { sampleVolume with
    bytes := store sampleVolume.bytes 4096 [6] }

def emptyFile : Inode := newInode 0x81A4 0 extentsFlag emptyRoot

def oneFile : Volume := sampleLayout.withInode twoBits 2 emptyFile

def twoFiles : Volume := sampleLayout.withInode oneFile 3 emptyFile

theorem twoBits_live (live : sampleLayout.Live twoBits ino) : ino = 2 ∨ ino = 3 := by
  have only : ∀ index < 16, ByteBitmap.test (sampleLayout.inodeBitmapOf twoBits 0) index = true →
      index = 1 ∨ index = 2 := by
    decide +kernel
  have inGroup : (ino - 1) / 16 < 1 := live.1.2
  have isGroup : (ino - 1) / sample.inodesPerGroup = 0 := Nat.lt_one_iff.mp inGroup
  have isSet := live.2
  rw [isGroup] at isSet
  have place : (ino - 1) % 16 = 1 ∨ (ino - 1) % 16 = 2 :=
    only _ (Nat.mod_lt (ino - 1) (by decide)) isSet
  omega

theorem twoFiles_tidy : Tidy sampleLayout twoFiles := by
  have formatted : Formatted sampleLayout twoBits := by
    refine sampleFormatted ?_ rfl rfl
    intro address low
    apply store_outside
    omega
  have oneFormatted := (formatted.withInode (by decide : sample.InTable 2) emptyFile).1
  have beside : Beside sampleLayout twoBits 2 oneFile :=
    Beside.refl.withInode formatted (by decide) emptyFile
  refine ⟨fun _ => none, Owned.of_inode oneFormatted nofun ?_ (by decide) fun _ _ =>
    ownedMap_empty 0x81A4 0⟩
  intro other different live _
  by_cases second : other = 2
  · subst second
    have agrees := sampleLayout.inodeAt_self twoBits 2 emptyFile
    exact (ownedMap_empty 0x81A4 0).congr agrees.hasExtents agrees.iBlock
  · have place := twoBits_live ((beside.others other second).1.mp live)
    omega

/-- A block that a live inode reaches is marked, and it is reached from no second place. -/
theorem reached_block_owned (reachable : (namespaceSystem layout).Reachable volume)
    {logical block : Nat} (reaches : layout.Reaches volume ino logical block) :
    fs.marked volume block = true ∧ ∀ other place, layout.Reaches volume other place block →
      other = ino ∧ place = logical := by
  rcases namespaceSystem_tidy reachable with ⟨owner, owned⟩
  have isOwner := owned.reaches reaches
  refine ⟨(owned.used block _ isOwner).2, ?_⟩
  intro other place again
  have second := owned.reaches again
  rw [isOwner] at second
  cases second
  exact ⟨rfl, rfl⟩

def writtenVolume : Volume := sample.perform twoFiles (.write 2 [1] 0)

theorem writtenVolume_reachable : (namespaceSystem sampleLayout).Reachable writtenVolume := by
  have file : OwningCall sampleLayout twoFiles (.write 2 [1] 0) :=
    ⟨by decide +kernel, by decide +kernel, .inl (by decide +kernel)⟩
  exact .step (.initial twoFiles_tidy) ⟨file, rfl⟩

theorem reached_block_owned_written :
    sampleLayout.Reaches writtenVolume 2 0 10 ∧ sample.marked writtenVolume 10 = true ∧
      ∀ other place, sampleLayout.Reaches writtenVolume other place 10 →
        other = 2 ∧ place = 0 := by
  have reaches : sampleLayout.Reaches writtenVolume 2 0 10 := by decide +kernel
  exact ⟨reaches, reached_block_owned writtenVolume_reachable reaches⟩

def truncationCalls : List NamespaceCall :=
  [.write 2 [1] 0, .truncate 2 0, .truncate 2 1, .write 3 [2] 0]

def truncatedVolume : Volume := truncationCalls.foldl sample.perform twoFiles

/-- The freed block is still mapped by the first file when the second one gets it. -/
theorem truncated_block_shared :
    Tidy sampleLayout twoFiles ∧ sampleLayout.Reaches truncatedVolume 2 0 10 ∧
      sampleLayout.Reaches truncatedVolume 3 0 10 := by
  refine ⟨twoFiles_tidy, ?_⟩
  -- One evaluation of the run serves both.
  decide +kernel

end Ext4Fs

end Qunix.Fs.Ext4
