import Qunix.Fs.Ext4.IndirectGrowth

/-! # What the calls keep

Each procedure on an inode leaves a volume whose blocks have owners, whether it succeeds
or fails on the way.
-/

namespace Qunix.Fs.Ext4

open Foundation Bytes FlatArray Procedure Inode Triple

namespace Ext4Fs

variable {fs : Ext4Fs} {layout : fs.Layout} {volume next start : Volume} {inode larger : Inode}
  {ino phys : Nat}

/-! ## Access to blocks -/

theorem getBlock_owned (logical : Nat) :
    Triple (Opened layout start ino inode) (fs.getBlock inode logical)
      (fun answer volume => Opened layout start ino inode volume ∧
        ∀ phys, answer = some phys → OpenedAt layout start ino phys inode volume)
          (Tidy layout) := by
  apply of_runs
  · intro volume opened answer next done
    have unchanged := opened.unchanged logical
    rw [done] at unchanged
    cases unchanged
    refine ⟨opened, ?_⟩
    rintro phys rfl
    exact (opened.found done).2
  · intro volume opened error next done
    have unchanged := opened.unchanged logical
    rw [done] at unchanged
    cases unchanged
    exact opened.tidy

theorem readBlock_owned (block : Nat) :
    Triple (OpenedAt layout start ino phys inode) (fs.readBlock block)
      (fun _ => OpenedAt layout start ino phys inode) (Tidy layout) :=
  observe fun _ opened => opened.opened.tidy

theorem writeBlock_changes {data : List UInt8} {answer : Except VfsError Unit}
    (closed : volume.current = none) (done : fs.writeBlock phys data volume = (answer, next)) :
    fs.Changes (· = phys) volume next := by
  have short : 0 + (data.take fs.blockSize).length ≤ fs.blockSize := by
    rw [List.length_take]
    omega
  have direct : fs.writeBlock phys data volume =
      writeBytesAt (phys * fs.blockSize) (data.take fs.blockSize) volume := by
    rw [writeBlock, closed]
  rw [direct, writeBytesAt] at done
  split at done
  next =>
    cases done
    exact @changes_store fs volume phys 0 _ short
  next =>
    cases done
    exact Changes.refl

theorem writeBlock_owned (data : List UInt8) :
    Triple (OpenedAt layout start ino phys inode) (fs.writeBlock phys data)
      (fun _ => Opened layout start ino inode) (Tidy layout) := by
  apply of_runs
  · intro volume opened _ next done
    exact opened.of_changes (writeBlock_changes opened.closed done)
  · intro volume opened _ next done
    exact (opened.of_changes (writeBlock_changes opened.closed done)).tidy

theorem writeChunk_owned {blkOff : Nat} {chunk : List UInt8} :
    Triple (OpenedAt layout start ino phys inode) (fs.writeChunk phys blkOff chunk)
      (fun _ => Opened layout start ino inode) (Tidy layout) := by
  rw [writeChunk]
  split
  next whole =>
    have inside : blkOff + chunk.length ≤ fs.blockSize := by omega
    apply of_runs
    · intro volume opened _ next done
      obtain ⟨_, rfl⟩ := writeBytesAt_ok.mp done
      exact opened.of_changes (changes_store inside)
    · intro volume opened error next done
      rw [writeBytesAt] at done
      split at done
      next => cases done
      cases done
      exact opened.opened.tidy
  next => exact bind (readBlock_owned phys) fun block => writeBlock_owned _

/-- The inode is written back, its map as it is in memory. -/
theorem writeInode_owned (flags : larger.hasExtents = inode.hasExtents)
    (blocks : larger.iBlock = inode.iBlock) :
    Triple (Opened layout start ino inode) (fs.writeInode ino larger)
      (fun _ volume => Tidy layout volume ∧ Beside layout start ino volume) (Tidy layout) := by
  apply of_runs
  · rintro volume ⟨owner, inTable, owned, map, beside, _⟩ _ next done
    rw [owned.formatted.writeInode inTable] at done
    cases done
    exact ⟨⟨owner, owned.withInode inTable fun _ _ => map.congr flags blocks⟩,
      beside.withInode owned.formatted inTable larger⟩
  · rintro volume ⟨owner, held⟩ error next done
    rw [held.owned.formatted.writeInode held.inTable] at done
    cases done

theorem Tidy.opened (tidy : Tidy layout volume) (live : layout.Live volume ino)
    (mapped : ¬(layout.inodeAt volume ino).FastSymlink) :
    Opened layout volume ino (layout.inodeAt volume ino) volume := by
  rcases tidy with ⟨owner, owned⟩
  exact ⟨owner, live.1, owned, owned.maps ino live mapped, Beside.refl,
    fun indirect => ⟨indirect, rfl⟩⟩

theorem Tidy.readInode (tidy : Tidy layout volume) (inTable : fs.InTable ino) :
    fs.readInode ino volume = (.ok (layout.inodeAt volume ino), volume) := by
  rcases tidy with ⟨owner, owned⟩
  exact owned.formatted.readInode inTable

/-! ## Growing files -/

theorem allocBlock_held {Known : (Nat → Option Holder) → Prop} :
    Triple (fun volume => ∃ owner, Held layout start ino inode owner volume ∧ Known owner)
      fs.allocBlock
      (fun phys volume => (∃ owner, Held layout start ino inode owner volume ∧ Known owner ∧
        Spare layout owner phys volume) ∧ (layout.Low start → phys < 4294967296))
      (Tidy layout) := by
  apply of_runs
  · rintro volume ⟨owner, held, known⟩ phys next done
    rcases held.owned.formatted.allocBlock done with ⟨formatted, isData, wasFree, marks, group,
      changes⟩
    have accounts : fs.Changes layout.Accounts volume next :=
      changes.mono fun block bookkeeping => ⟨group, bookkeeping⟩
    refine ⟨⟨owner, held.of_changes accounts formatted ?_ (fun _ => layout.accounts_offInodes) ?_,
      known, isData, ?_, held.owned.unowned wasFree⟩, ?_⟩
    · intro block blockIsData isMarked
      rw [marks block blockIsData, isMarked, Bool.or_true]
    · exact fun block ino accounts isOwner => held.owned.not_accounts isOwner accounts
    · rw [marks phys isData, decide_eq_true rfl, Bool.true_or]
    · exact fun low => low phys isData (held.beside.taken phys isData wasFree)
  · rintro volume ⟨owner, held, _⟩ error next failed
    rw [held.owned.formatted.allocBlock_error failed]
    exact ⟨owner, held.owned⟩

theorem zeroBlock_held {Known : (Nat → Option Holder) → Prop} :
    Triple (fun volume => ∃ owner, Held layout start ino inode owner volume ∧ Known owner ∧
        Spare layout owner phys volume)
      (fs.writeBlock phys (List.replicate fs.blockSize 0))
      (fun _ volume => ∃ owner, Held layout start ino inode owner volume ∧ Known owner ∧
        Spare layout owner phys volume ∧
          load volume.bytes (phys * fs.blockSize) fs.blockSize = List.replicate fs.blockSize 0)
      (Tidy layout) := by
  have whole : (List.replicate fs.blockSize (0 : UInt8)).length = fs.blockSize :=
    List.length_replicate
  rintro volume ⟨owner, held, known, spare⟩
  have inside := (layout.dataInside phys spare.isData).2.2.1
  rw [← held.owned.formatted.size] at inside
  have done := (writeBlock_ok held.owned.formatted.closed whole).mpr ⟨inside, rfl⟩
  have loaded := @load_store_same _ volume.bytes (phys * fs.blockSize)
    (List.replicate fs.blockSize 0)
  rw [whole] at loaded
  have notPointer : ∀ other, owner phys ≠ some ⟨other, none⟩ := by
    intro other isPointer
    rw [spare.unowned] at isPointer
    cases isPointer
  rcases held.of_contents spare.isData notPointer
    (writeBlock_changes held.owned.formatted.closed done) with ⟨kept, marked⟩
  rw [done]
  exact ⟨owner, kept, known, ⟨spare.isData, marked.trans spare.isMarked, spare.unowned⟩, loaded⟩

theorem extentAllocBlock_owned (extents : inode.hasExtents = true) (logical : Nat) :
    Triple (Opened layout start ino inode) (fs.extentAllocBlock inode logical)
      (fun result volume => OpenedAt layout start ino result.1 result.2 volume ∧
        layout.Growable start result.2) (Tidy layout) := by
  refine bind ((@allocBlock_held fs layout start inode ino fun _ => True).restrict ?_) ?_
  · rintro volume ⟨owner, held⟩
    exact ⟨owner, held, trivial⟩
  intro phys
  apply Triple.assume
  intro _
  refine bind zeroBlock_held ?_
  intro _
  cases inserted : extentInsert inode.iBlock logical phys with
  | error error =>
    -- A block that could not be entered into the map stays marked.
    apply Triple.fail
    rintro volume ⟨owner, held, _⟩
    exact ⟨owner, held.owned⟩
  | ok root =>
    apply Triple.pure
    rintro volume ⟨owner, held, _, spare, _⟩
    have small := (layout.dataInside phys spare.isData).2.2.2
    rcases @mapExtends_insert fs inode logical phys root extents (held.map.few extents) small
      inserted volume volume with ⟨leaf, key, _, extended⟩
    have isRoot : (inode.setIBlock root).iBlock = root := iBlock_setIBlock leaf.whole
    have stillExtents : (inode.setIBlock root).hasExtents = true := by simpa using extents
    have isLeaf : Leaf (inode.setIBlock root).iBlock := by
      rw [isRoot]
      exact leaf
    refine ⟨⟨_, key, ⟨held.inTable, held.owned.grant spare ⟨ino, some key⟩,
      ⟨fun _ _ => isLeaf.few, ?_, ?_, ?_, ?_⟩, held.beside, ?_⟩, Function.update_self ..⟩,
      .inl stillExtents⟩
    · intro other _ place
      rw [getBlock_leaf stillExtents isLeaf, getBlock_leaf stillExtents isLeaf]
    · intro place block found
      rcases extended.sound place block found with old | ⟨rfl, rfl⟩
      · exact spare.kept (held.map.owned place block old)
      · rw [Function.update_self]
    all_goals
      rw [stillExtents]
      nofun

theorem indirectTable_held (indirect : inode.hasExtents = false) (low : layout.Low start)
    (logical : Nat) :
    Triple (fun volume => ∃ owner, Held layout start ino inode owner volume ∧
        owner phys = some ⟨ino, some logical⟩) (fs.indirectTable ino inode)
      (fun larger volume => (∃ owner, Held layout start ino larger owner volume ∧
        owner phys = some ⟨ino, some logical⟩ ∧
          owner (larger.blockPointer 12) = some ⟨ino, none⟩) ∧ larger.hasExtents = false)
      (Tidy layout) := by
  rw [indirectTable]
  split
  next =>
    refine bind allocBlock_held ?_
    intro table
    apply Triple.assume
    intro small
    refine bind zeroBlock_held ?_
    rintro _ volume ⟨owner, held, placed, spare, zeroed⟩
    have map := held.map.newTable indirect (small low) spare.unowned (fun _ _ => spare.kept)
      (Function.update_self ..) zeroed
    rw [bind_of_ok (held.owned.formatted.writeInode held.inTable _)]
    refine ⟨⟨_, Held.withInode (held.owned.grant spare ⟨ino, none⟩) map held.beside held.inTable,
      spare.kept placed, ?_⟩, ?_⟩
    · rw [blockPointer_setBlockPointer (small low), Function.update_self]
    · rw [hasExtents_setBlockPointer, indirect]
  next present =>
    apply Triple.pure
    rintro volume ⟨owner, held, placed⟩
    exact ⟨⟨owner, held, placed, held.map.table indirect present⟩, indirect⟩

theorem indirectSetBlock_owned (indirect : inode.hasExtents = false) (low : layout.Low start)
    (small : phys < 4294967296) (logical : Nat) :
    Triple (fun volume => ∃ owner, Held layout start ino inode owner volume ∧
        owner phys = some ⟨ino, some logical⟩) (fs.indirectSetBlock ino inode logical phys)
      (fun larger => OpenedAt layout start ino phys larger) (Tidy layout) := by
  rw [indirectSetBlock]
  split
  next direct =>
    rintro volume ⟨owner, held, placed⟩
    rw [bind_of_ok (held.owned.formatted.writeInode held.inTable _)]
    exact ⟨owner, logical, Held.withInode held.owned
      (held.map.direct indirect small direct placed) held.beside held.inTable, placed⟩
  next tail =>
    split
    next inside =>
      refine bind (indirectTable_held indirect low logical) ?_
      intro larger
      apply Triple.assume
      rintro stillIndirect volume ⟨owner, held, placed, isTable⟩
      have onDisk := (layout.dataInside _ (held.owned.used _ _ isTable).1).2.2.1
      rw [← held.owned.formatted.size] at onDisk
      have written : fs.writeIndirectPtr (larger.blockPointer 12) (logical - 12) phys volume =
          (.ok (), fs.withEntry volume (larger.blockPointer 12) (logical - 12) phys) :=
        writeBytesAt_ok.mpr ⟨by rw [length_le32]; omega, rfl⟩
      rw [bind_of_ok written]
      exact ⟨owner, logical, held.entry stillIndirect small (by omega) inside placed isTable,
        placed⟩
    next =>
      apply Triple.fail
      rintro volume ⟨owner, held, _⟩
      exact ⟨owner, held.owned⟩

theorem mapNewBlock_owned (growable : layout.Growable start inode) (logical : Nat) :
    Triple (Opened layout start ino inode) (fs.mapNewBlock ino inode logical)
      (fun result volume => OpenedAt layout start ino result.1 result.2 volume ∧
        layout.Growable start result.2) (Tidy layout) := by
  rw [mapNewBlock]
  split
  next extents => exact extentAllocBlock_owned extents logical
  next notExtents =>
    have low := growable.resolve_left notExtents
    refine bind ((@allocBlock_held fs layout start inode ino fun _ => True).restrict ?_) ?_
    · rintro volume ⟨owner, held⟩
      exact ⟨owner, held, trivial⟩
    intro phys
    apply Triple.assume
    intro small
    refine bind ((indirectSetBlock_owned (Bool.eq_false_of_not_eq_true notExtents) low (small low)
      logical).restrict ?_) ?_
    · rintro volume ⟨owner, held, _, spare⟩
      exact ⟨_, held.grant spare ⟨ino, some logical⟩, Function.update_self ..⟩
    intro larger
    exact pure fun volume opened => ⟨opened, .inr low⟩

theorem blockForWrite_owned (growable : layout.Growable start inode) (logical : Nat) :
    Triple (Opened layout start ino inode) (fs.blockForWrite ino inode logical)
      (fun result volume => OpenedAt layout start ino result.1 result.2 volume ∧
        layout.Growable start result.2) (Tidy layout) := by
  refine bind (getBlock_owned logical) ?_
  intro answer
  cases answer with
  | none =>
    apply (mapNewBlock_owned growable logical).restrict
    intro volume both
    exact both.1
  | some phys => exact pure fun volume both => ⟨both.2 phys rfl, growable⟩

theorem writeLoop_owned (turns : Nat) : ∀ {inode : Inode} {position : Nat} {data : List UInt8},
    layout.Growable start inode →
      Triple (Opened layout start ino inode) (fs.writeLoop ino turns inode position data)
        (fun larger => Opened layout start ino larger) (Tidy layout) := by
  induction turns with
  | zero =>
    intro inode position data _
    exact pure fun _ opened => opened
  | succ turns induction =>
    intro inode position data growable
    rw [writeLoop]
    split
    next => exact pure fun _ opened => opened
    refine bind (blockForWrite_owned growable _) ?_
    rintro ⟨phys, larger⟩
    apply Triple.assume
    intro stillGrowable
    exact bind writeChunk_owned fun _ => induction stillGrowable

theorem writeFile_owned (growable : layout.Growable start inode) (data : List UInt8)
    (offset : Nat) :
    Triple (Opened layout start ino inode) (fs.writeFile ino inode data offset)
      (fun _ volume => Tidy layout volume ∧ Beside layout start ino volume) (Tidy layout) := by
  refine bind (writeLoop_owned data.length growable) ?_
  intro larger
  refine bind (writeInode_owned (hasExtents_setSize _) (iBlock_setSize _)) ?_
  intro _
  exact pure fun _ both => both

/-! ## Directories -/

theorem visit_owned {Result : Type} {rest : Ext4M Result} {body : Nat → List UInt8 → Ext4M Result}
    {after : Result → Volume → Prop} (logical : Nat)
    (hole : Triple (Opened layout start ino inode) rest after (Tidy layout))
    (inside : ∀ phys block, Triple (OpenedAt layout start ino phys inode) (body phys block) after
      (Tidy layout)) :
    Triple (Opened layout start ino inode) (do
      match ← fs.getBlock inode logical with
      | none => rest
      | some phys => do
          let block ← fs.readBlock phys
          body phys block) after (Tidy layout) := by
  refine bind (getBlock_owned logical) ?_
  intro answer
  cases answer with
  | none =>
    apply hole.restrict
    intro volume both
    exact both.1
  | some phys =>
    apply (bind (readBlock_owned phys) (inside phys)).restrict
    intro volume both
    exact both.2 phys rfl

theorem dirAddInBlocks_owned (child : Nat) (name : List UInt8) (fileType : UInt8)
    (logicals : List Nat) :
    Triple (Opened layout start ino inode) (fs.dirAddInBlocks inode child name fileType logicals)
      (fun _ => Opened layout start ino inode) (Tidy layout) := by
  induction logicals with
  | nil => exact pure fun _ opened => opened
  | cons logical rest induction =>
    refine visit_owned logical induction ?_
    intro phys block
    cases findSlack block (entrySize name.length) with
    | none =>
      apply induction.restrict
      intro volume opened
      exact opened.opened
    | some bpos =>
      refine bind (writeBlock_owned _) ?_
      intro _
      exact pure fun _ opened => opened

theorem dirAddEntry_owned (growable : layout.Growable start inode) (child : Nat)
    (name : List UInt8) (fileType : UInt8) :
    Triple (Opened layout start ino inode) (fs.dirAddEntry ino inode child name fileType)
      (fun _ volume => Tidy layout volume ∧ Beside layout start ino volume) (Tidy layout) := by
  refine bind (dirAddInBlocks_owned child name fileType _) ?_
  intro added
  cases added with
  | true => exact pure fun _ opened => ⟨opened.tidy, opened.beside⟩
  | false =>
    refine bind (mapNewBlock_owned growable _) ?_
    rintro ⟨phys, larger⟩
    apply Triple.assume
    intro _
    refine bind (writeBlock_owned _) ?_
    intro _
    refine bind (writeInode_owned (hasExtents_setSize _) (iBlock_setSize _)) ?_
    intro _
    exact pure fun _ both => both

theorem dirRemoveInBlocks_owned (name : List UInt8) (logicals : List Nat) :
    Triple (Opened layout start ino inode) (fs.dirRemoveInBlocks inode name logicals)
      (fun _ volume => Tidy layout volume ∧ Beside layout start ino volume) (Tidy layout) := by
  induction logicals with
  | nil => exact fail fun _ opened => opened.tidy
  | cons logical rest induction =>
    refine visit_owned logical induction ?_
    intro phys block
    cases findName block name with
    | none =>
      apply induction.restrict
      intro volume opened
      exact opened.opened
    | some bpos =>
      apply (writeBlock_owned _).weaken (fun _ opened => opened)
      · intro _ volume opened
        exact ⟨opened.tidy, opened.beside⟩
      · intro volume tidy
        exact tidy

end Ext4Fs

end Qunix.Fs.Ext4
