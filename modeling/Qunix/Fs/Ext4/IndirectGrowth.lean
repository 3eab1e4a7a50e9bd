import Qunix.Fs.Ext4.Ownership

/-! # New blocks in maps without extents

The word for a new block is in the inode or in its single indirect table. Both keep the
blocks of the map with their owner.
-/

namespace Qunix.Fs.Ext4

open Foundation Bytes FlatArray Procedure Inode

namespace Inode

variable {self : Inode} {index other block : Nat} {inside : index < 15}

theorem blockPointer_setBlockPointer (small : block < 4294967296) :
    (self.setBlockPointer index block inside).blockPointer index = block := by
  rw [blockPointer, setBlockPointer, readLe32_patch_same, Nat.mod_eq_of_lt small]

theorem blockPointer_setBlockPointer_other (different : other ≠ index) :
    (self.setBlockPointer index block inside).blockPointer other = self.blockPointer other :=
  readLe32_patch (by rw [length_le32]; omega)

@[simp] theorem hasExtents_setBlockPointer :
    (self.setBlockPointer index block inside).hasExtents = self.hasExtents := by
  rw [hasExtents, hasExtents, flags, flags, setBlockPointer, readLe32_patch (by omega)]

end Inode

namespace Ext4Fs

variable {fs : Ext4Fs} {owner : Nat → Option Holder} {volume next : Volume}
  {inode : Inode} {ino logical phys block index : Nat} {Changed : Nat → Prop}

/-! ## Entries of a table -/

theorem readIndirectPtr_run : fs.readIndirectPtr block index volume =
    (if block * fs.blockSize + index * 4 + 4 ≤ volume.size then
      .ok (if readLe32 (load volume.bytes (block * fs.blockSize + index * 4) 4) 0 = 0 then none
        else some (readLe32 (load volume.bytes (block * fs.blockSize + index * 4) 4) 0))
      else .error .eio, volume) := by
  by_cases inside : block * fs.blockSize + index * 4 + 4 ≤ volume.size
  · rw [readIndirectPtr, bind_of_ok (readBytesAt_ok.mpr ⟨inside, rfl, rfl⟩), if_pos inside]
    rfl
  · have failed : readBytesAt (block * fs.blockSize + index * 4) 4 volume =
        (.error .eio, volume) := by
      rw [readBytesAt_run, if_neg inside]
    rw [readIndirectPtr, bind_of_error failed, if_neg inside]

theorem readIndirectPtr_found
    (found : (fs.readIndirectPtr block index volume).1 = .ok (some phys)) :
    readLe32 (load volume.bytes (block * fs.blockSize + index * 4) 4) 0 = phys ∧ phys ≠ 0 := by
  rw [readIndirectPtr_run] at found
  split at found
  next =>
    split at found
    next => cases found
    next some =>
      cases found
      exact ⟨rfl, some⟩
  next => cases found

theorem Changes.readIndirectPtr (changes : fs.Changes Changed volume next) (kept : ¬Changed block)
    (inside : index < fs.blockSize / 4) :
    fs.readIndirectPtr block index next = ((fs.readIndirectPtr block index volume).1, next) := by
  have same := @Changes.load_block fs Changed volume next changes block kept (index * 4) 4
    (by omega)
  rw [readIndirectPtr_run, readIndirectPtr_run, changes.size, same]

variable (fs) in
/-- The volume with an entry of a table. -/
def withEntry (volume : Volume) (block index phys : Nat) : Volume :=
  { volume with bytes := store volume.bytes (block * fs.blockSize + index * 4) (le32 phys) }

theorem changes_withEntry (inside : index < fs.blockSize / 4) :
    fs.Changes (· = block) volume (fs.withEntry volume block index phys) :=
  changes_store (by rw [length_le32]; omega)

theorem readIndirectPtr_withEntry {place : Nat} (small : phys < 4294967296) {answer : Nat}
    (found : (fs.readIndirectPtr block place (fs.withEntry volume block index phys)).1 =
      .ok (some answer)) :
    (place = index ∧ answer = phys) ∨
      (fs.readIndirectPtr block place volume).1 = .ok (some answer) := by
  by_cases same : place = index
  · subst same
    have loaded := @load_store_same _ volume.bytes (block * fs.blockSize + place * 4) (le32 phys)
    have word := readLe32_le32 phys []
    rw [List.append_nil, Nat.mod_eq_of_lt small] at word
    rw [length_le32] at loaded
    have value := (readIndirectPtr_found found).1
    rw [withEntry, loaded, word] at value
    exact .inl ⟨rfl, value.symm⟩
  · rw [readIndirectPtr_run, withEntry, load_store_outside (by rw [length_le32]; omega)] at found
    rw [readIndirectPtr_run]
    exact .inr found

/-! ## Reading maps without extents -/

section

variable (indirect : inode.hasExtents = false)
include indirect

theorem getBlock_direct (direct : logical < 12) :
    fs.getBlock inode logical volume = (.ok (if inode.blockPointer logical = 0 then none
      else some (inode.blockPointer logical)), volume) := by
  rw [getBlock, if_neg (by simp [indirect]), indirectGetBlock, if_pos direct, pure_run]

theorem getBlock_direct_found (direct : logical < 12) :
    (fs.getBlock inode logical volume).1 = .ok (some block) ↔
      inode.blockPointer logical = block ∧ block ≠ 0 := by
  rw [getBlock_direct indirect direct]
  grind

theorem getBlock_single (tail : 12 ≤ logical) (inside : logical - 12 < fs.blockSize / 4) :
    fs.getBlock inode logical = if inode.blockPointer 12 = 0 then pure none
      else fs.readIndirectPtr (inode.blockPointer 12) (logical - 12) := by
  rw [getBlock, if_neg (by simp [indirect]), indirectGetBlock, if_neg (by omega), if_pos inside]

/-- Behind the direct blocks the map starts from two words of the inode. -/
theorem getBlock_setBlockPointer {small : index < 15} (tail : 12 ≤ logical)
    (single : logical - 12 < fs.blockSize / 4 → index ≠ 12) (double : index ≠ 13) :
    fs.getBlock (inode.setBlockPointer index phys small) logical = fs.getBlock inode logical := by
  simp only [getBlock, hasExtents_setBlockPointer, indirect, indirectGetBlock,
    blockPointer_setBlockPointer_other double.symm, if_neg (not_lt.mpr tail), Bool.false_eq_true,
    if_false]
  split
  next inside => rw [blockPointer_setBlockPointer_other (single inside).symm]
  next => rfl

end

/-! ## Owned maps -/

section

variable (indirect : inode.hasExtents = false)

include indirect

/-- A map without extents from its three parts. -/
theorem OwnedMap.of_parts
    (head : ∀ place, place < 12 → inode.blockPointer place ≠ 0 →
      owner (inode.blockPointer place) = some ⟨ino, some place⟩)
    (table : inode.blockPointer 12 ≠ 0 → owner (inode.blockPointer 12) = some ⟨ino, none⟩)
    (single : ∀ place block, 12 ≤ place → place - 12 < fs.blockSize / 4 →
      inode.blockPointer 12 ≠ 0 →
      (fs.readIndirectPtr (inode.blockPointer 12) (place - 12) volume).1 = .ok (some block) →
        owner block = some ⟨ino, some place⟩)
    (behind : fs.DependsBehind
      (fun block => owner block = some ⟨ino, none⟩ ∧ block ≠ inode.blockPointer 12) inode volume)
    (double : ∀ place block, 12 + fs.blockSize / 4 ≤ place →
      (fs.getBlock inode place volume).1 = .ok (some block) →
        owner block = some ⟨ino, some place⟩) :
    fs.OwnedMap owner ino inode volume := by
  refine ⟨?_, ?_, ?_, fun _ => table, fun _ => behind⟩
  · rw [indirect]
    nofun
  · intro later changes place
    by_cases direct : place < 12
    · rw [getBlock_direct indirect direct, getBlock_direct indirect direct]
    by_cases inside : place - 12 < fs.blockSize / 4
    · rw [getBlock_single indirect (by omega) inside]
      split
      next => rfl
      next present =>
        exact changes.readIndirectPtr (fun notPointer => notPointer (table present)) inside
    · refine behind later (changes.mono ?_) place (by omega)
      exact fun block notPointer both => notPointer both.1
  · intro place block found
    by_cases direct : place < 12
    · rcases (getBlock_direct_found indirect direct).mp found with ⟨rfl, present⟩
      exact head place direct present
    by_cases inside : place - 12 < fs.blockSize / 4
    · rw [getBlock_single indirect (by omega) inside] at found
      split at found
      next => cases found
      next present => exact single place block (by omega) inside present found
    · exact double place block (by omega) found

variable (map : fs.OwnedMap owner ino inode volume)

include map

theorem OwnedMap.head (direct : logical < 12) (present : inode.blockPointer logical ≠ 0) :
    owner (inode.blockPointer logical) = some ⟨ino, some logical⟩ :=
  map.owned logical _ ((getBlock_direct_found indirect direct).mpr ⟨rfl, present⟩)

theorem OwnedMap.single (tail : 12 ≤ logical) (inside : logical - 12 < fs.blockSize / 4)
    (present : inode.blockPointer 12 ≠ 0)
    (found : (fs.readIndirectPtr (inode.blockPointer 12) (logical - 12) volume).1 =
      .ok (some block)) : owner block = some ⟨ino, some logical⟩ := by
  apply map.owned logical block
  rw [getBlock_single indirect tail inside, if_neg present, found]

variable (small : phys < 4294967296)

include small

theorem OwnedMap.direct (direct : logical < 12) (placed : owner phys = some ⟨ino, some logical⟩) :
    fs.OwnedMap owner ino (inode.setBlockPointer logical phys (by omega)) volume := by
  have same : ∀ {place}, place ≠ logical →
      (inode.setBlockPointer logical phys (by omega)).blockPointer place =
        inode.blockPointer place := blockPointer_setBlockPointer_other
  have tail : ∀ place, 12 + fs.blockSize / 4 ≤ place →
      fs.getBlock (inode.setBlockPointer logical phys (by omega)) place =
        fs.getBlock inode place :=
    fun place high => getBlock_setBlockPointer indirect (by omega) (by omega) (by omega)
  apply OwnedMap.of_parts
  · rw [hasExtents_setBlockPointer, indirect]
  · intro place head
    by_cases here : place = logical
    · subst here
      rw [blockPointer_setBlockPointer small]
      exact fun _ => placed
    · rw [same here]
      exact map.head indirect head
  · rw [same (by omega)]
    exact map.table indirect
  · rw [same (by omega)]
    exact fun place block => map.single indirect
  · rw [same (by omega)]
    intro later changes place high
    rw [tail place high]
    exact map.behind indirect later changes place high
  · intro place block high
    rw [tail place high]
    exact map.owned place block

/-- A table without entries, in a block that nobody owned. -/
theorem OwnedMap.newTable {wider : Nat → Option Holder} (unowned : owner phys = none)
    (kept : ∀ block holder, owner block = some holder → wider block = some holder)
    (isTable : wider phys = some ⟨ino, none⟩)
    (zeroed : load volume.bytes (phys * fs.blockSize) fs.blockSize =
      List.replicate fs.blockSize 0) :
    fs.OwnedMap wider ino (inode.setBlockPointer 12 phys (by decide)) volume := by
  have pointer : (inode.setBlockPointer 12 phys (by decide)).blockPointer 12 = phys :=
    blockPointer_setBlockPointer small
  have tail : ∀ place, 12 + fs.blockSize / 4 ≤ place →
      fs.getBlock (inode.setBlockPointer 12 phys (by decide)) place =
        fs.getBlock inode place :=
    fun place high => getBlock_setBlockPointer indirect (by omega) (by omega) (by decide)
  apply OwnedMap.of_parts
  · rw [hasExtents_setBlockPointer, indirect]
  · intro place head
    rw [blockPointer_setBlockPointer_other (by omega)]
    exact fun present => kept _ _ (map.head indirect head present)
  · rw [pointer]
    exact fun _ => isTable
  · rw [pointer]
    intro place block _ inside _ found
    have empty : load volume.bytes (phys * fs.blockSize + (place - 12) * 4) 4 =
        List.replicate 4 0 := by
      rw [← @take_load _ _ _ (fs.blockSize - (place - 12) * 4) 4 (by omega),
        ← drop_load (by omega), zeroed, List.drop_replicate, List.take_replicate,
        Nat.min_eq_left (by omega)]
    rcases readIndirectPtr_found found with ⟨value, notZero⟩
    rw [empty] at value
    exact absurd value.symm notZero
  · rw [pointer]
    intro later changes place high
    rw [tail place high]
    refine map.depends later (changes.mono ?_) place
    intro block notPointer isPointer
    refine notPointer ⟨kept block _ isPointer, ?_⟩
    rintro rfl
    rw [unowned] at isPointer
    cases isPointer
  · intro place block high
    rw [tail place high]
    exact fun found => kept _ _ (map.owned place block found)

theorem OwnedMap.entry (tail : 12 ≤ logical) (inside : logical - 12 < fs.blockSize / 4)
    (placed : owner phys = some ⟨ino, some logical⟩) :
    fs.OwnedMap owner ino inode
      (fs.withEntry volume (inode.blockPointer 12) (logical - 12) phys) := by
  have wide : fs.Changes (fun block => ¬(owner block = some ⟨ino, none⟩ ∧
      block ≠ inode.blockPointer 12)) volume
        (fs.withEntry volume (inode.blockPointer 12) (logical - 12) phys) :=
    (changes_withEntry inside).mono fun block same both => both.2 same
  have behind := map.behind indirect _ wide
  apply OwnedMap.of_parts indirect (fun _ => map.head indirect) (map.table indirect)
  · intro place block high single present found
    rcases readIndirectPtr_withEntry small found with ⟨here, rfl⟩ | before
    · rw [placed, (by omega : place = logical)]
    · exact map.single indirect high single present before
  · intro later away place high
    rw [behind place high]
    exact map.behind indirect later (wide.trans away) place high
  · intro place block high
    rw [behind place high]
    exact map.owned place block

end

theorem Held.entry {layout : fs.Layout} {start : Volume}
    (held : Held layout start ino inode owner volume) (indirect : inode.hasExtents = false)
    (small : phys < 4294967296) (tail : 12 ≤ logical) (inside : logical - 12 < fs.blockSize / 4)
    (placed : owner phys = some ⟨ino, some logical⟩)
    (isTable : owner (inode.blockPointer 12) = some ⟨ino, none⟩) :
    Held layout start ino inode owner
      (fs.withEntry volume (inode.blockPointer 12) (logical - 12) phys) := by
  have map := held.map.entry indirect small tail inside placed
  have changes := @changes_withEntry fs volume phys (inode.blockPointer 12) _ inside
  have isData := (held.owned.used _ _ isTable).1
  rcases held.owned.formatted.of_contents changes (by rintro block rfl; exact .inl isData) with
    ⟨formatted, marks⟩
  apply held.of_maps changes formatted _ _ map
  · intro other old
    by_cases own : other = ino
    · subst own
      rcases held.synced indirect with ⟨flags, blocks⟩
      exact map.congr (flags.trans indirect.symm) blocks
    · apply old.of_changes changes
      rintro block rfl isOwner
      rw [isTable] at isOwner
      cases isOwner
      exact own rfl
  · intro block isData marked
    rw [marks block isData, marked]
  · rintro block rfl
    exact layout.data_offInodes isData

end Ext4Fs

end Qunix.Fs.Ext4
