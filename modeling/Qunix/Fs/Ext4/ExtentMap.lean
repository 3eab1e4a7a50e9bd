import Qunix.Fs.Ext4.Inode
import Mathlib.Data.List.TakeWhile

/-! # Extents in an inode

A root that is a leaf maps logical blocks through its extents, first match first. An
insertion adds one block to the map.
-/

namespace Qunix.Fs.Ext4.Ext4Fs

open Foundation Bytes FlatArray List

/-! ## Leaves -/

/-- A root that is a leaf with as many extents as it has room for. -/
structure Leaf (root : List UInt8) : Prop where
  whole : root.length = 60
  magic : readLe16 root 0 = extentMagic
  isLeaf : nodeDepth root = 0
  few : entryCount root ≤ 4

variable {root next : List UInt8} {logical phys : Nat}

theorem leafSearch_eq (whole : root.length = 60) (few : entryCount root ≤ 4) (logical : Nat) :
    leafSearch root logical =
      (List.range (entryCount root)).findSome? fun index =>
        (extentAt root index).find logical := by
  have all : entriesInside root = List.range (entryCount root) := by
    apply List.takeWhile_eq_self_iff.mpr
    intro index member
    have small := mem_range.mp member
    rw [entryOffset, whole, decide_eq_true_eq]
    omega
  rw [leafSearch, all]

theorem leafSearch_succ {count : Nat} (whole : root.length = 60)
    (isCount : entryCount root = count + 1) (few : count + 1 ≤ 4) (logical : Nat) :
    leafSearch root logical =
      ((List.range count).findSome? fun index => (extentAt root index).find logical).or
        ((extentAt root count).find logical) := by
  rw [leafSearch_eq whole (by omega), isCount, range_succ, findSome?_append, findSome?_singleton]

theorem findSome_congr {count : Nat}
    (same : ∀ index < count, extentAt next index = extentAt root index) (logical : Nat) :
    ((List.range count).findSome? fun index => (extentAt next index).find logical) =
      (List.range count).findSome? fun index => (extentAt root index).find logical := by
  induction count with
  | zero => rfl
  | succ count induction =>
    rw [range_succ, findSome?_append, findSome?_append, findSome?_singleton,
      findSome?_singleton, induction fun index small => same index (by omega),
      same count (by omega)]

theorem Extent.find_extend {extent longer : Extent} (sameBlock : longer.block = extent.block)
    (sameStart : longer.start = extent.start) (length : longer.length = extent.length + 1)
    (logical : Nat) :
    longer.find logical = (extent.find logical).or
      (if logical = extent.block + extent.length then some (extent.start + extent.length)
        else none) := by
  rw [Extent.find, Extent.find, sameBlock, sameStart, length]
  by_cases inside : extent.block ≤ logical ∧ logical < extent.block + extent.length
  · rw [if_pos inside, if_pos (by omega), Option.some_or]
  rw [if_neg inside, Option.none_or]
  by_cases here : logical = extent.block + extent.length
  · rw [if_pos here, if_pos (by omega), here, Nat.add_sub_cancel_left]
  · rw [if_neg here, if_neg (by omega)]

/-! ## Insertion -/

theorem extentAt_overwrite {position index : Nat} {data : List UInt8}
    (inside : position + data.length ≤ root.length)
    (apart : entryOffset index + 12 ≤ position ∨ position + data.length ≤ entryOffset index) :
    extentAt (overwrite root position data) index = extentAt root index := by
  rw [extentAt, extentAt, readLe32_overwrite_outside inside (by omega),
    readLe16_overwrite_outside inside (by omega), readLe16_overwrite_outside inside (by omega),
    readLe32_overwrite_outside inside (by omega)]

section

variable {position : Nat} {data : List UInt8} (inside : position + data.length ≤ root.length)
  (past : 12 ≤ position)

include inside past

theorem entryCount_overwrite : entryCount (overwrite root position data) = entryCount root :=
  readLe16_overwrite_outside inside (by omega)

theorem Leaf.of_overwrite (leaf : Leaf root) : Leaf (overwrite root position data) where
  whole := by rw [length_overwrite inside, leaf.whole]
  magic := by rw [readLe16_overwrite_outside inside (by omega), leaf.magic]
  isLeaf := Eq.trans (readLe16_overwrite_outside inside (by omega)) leaf.isLeaf
  few := by
    rw [entryCount_overwrite inside past]
    exact leaf.few

end

theorem extendLast_some (leaf : Leaf root) (done : extendLast root logical phys = some next) :
    Leaf next ∧ ∀ other, leafSearch next other =
      (leafSearch root other).or (if other = logical then some phys else none) := by
  have few := leaf.few
  have whole := leaf.whole
  rw [extendLast] at done
  split at done
  next some =>
    dsimp only at done
    split at done
    next continues =>
      cases done
      rcases Nat.exists_eq_succ_of_ne_zero (ne_of_gt some) with ⟨count, isCount⟩
      rw [Nat.succ_eq_add_one] at isCount
      rw [isCount, Nat.add_sub_cancel] at continues ⊢
      have place : entryOffset count + 6 ≤ 60 := by
        rw [entryOffset]
        omega
      generalize isLonger : readLe16 root (entryOffset count + 4) + 1 = longer
      have inside : entryOffset count + 4 + (le16 longer).length ≤ root.length := by
        rw [length_le16, whole]
        omega
      -- The header and the earlier extents are in front of the length.
      have start : 12 ≤ entryOffset count := Nat.le_add_right 12 _
      have isLeaf := leaf.of_overwrite inside (by omega)
      have sameCount := (entryCount_overwrite inside (by omega)).trans isCount
      have earlier : ∀ index < count, extentAt (overwrite root (entryOffset count + 4)
          (le16 longer)) index = extentAt root index := by
        intro index small
        have before : entryOffset index + 12 ≤ entryOffset count := by
          rw [entryOffset, entryOffset]
          omega
        exact extentAt_overwrite inside (by omega)
      have last := @Extent.find_extend (extentAt root count) (extentAt (overwrite root
          (entryOffset count + 4) (le16 longer)) count)
        (by
          simp only [extentAt]
          rw [readLe32_overwrite_outside inside (by omega)])
        (by
          simp only [extentAt]
          rw [readLe16_overwrite_outside inside (by rw [length_le16]; omega),
            readLe32_overwrite_outside inside (by rw [length_le16]; omega)])
        (by
          have short := continues.2.2
          simp only [extentAt] at short ⊢
          rw [readLe16_overwrite_here _ (by omega)]
          omega)
      refine ⟨isLeaf, fun other => ?_⟩
      rw [leafSearch_succ isLeaf.whole sameCount (by omega),
        leafSearch_succ whole isCount (by omega), findSome_congr earlier, last, Option.or_assoc,
        continues.1, continues.2.1]
    next => cases done
  next => cases done

theorem Leaf.withCount {count : Nat} (leaf : Leaf root) (few : count ≤ 4) :
    Leaf (overwrite root 2 (le16 count)) ∧ entryCount (overwrite root 2 (le16 count)) = count ∧
      ∀ index, extentAt (overwrite root 2 (le16 count)) index = extentAt root index := by
  have inside : 2 + (le16 count).length ≤ root.length := by
    rw [leaf.whole, length_le16]
    decide
  have counted : entryCount (overwrite root 2 (le16 count)) = count := by
    rw [entryCount, readLe16_overwrite_here _ (by omega), Nat.mod_eq_of_lt (by omega)]
  refine ⟨⟨?_, ?_, ?_, by rwa [counted]⟩, counted, fun index => ?_⟩
  · rw [length_overwrite inside, leaf.whole]
  · rw [readLe16_overwrite_outside inside (by omega), leaf.magic]
  · exact Eq.trans (readLe16_overwrite_outside inside (by simp)) leaf.isLeaf
  · exact extentAt_overwrite inside (.inr (le_trans (by simp) (Nat.le_add_right 12 _)))

theorem extentAt_extentBytes {index : Nat} (inside : entryOffset index ≤ root.length)
    (small : phys < 281474976710656) :
    extentAt (overwrite root (entryOffset index) (extentBytes logical phys)) index =
      ⟨logical % 4294967296, 1, phys⟩ := by
  have block : readLe32 (overwrite root (entryOffset index) (extentBytes logical phys))
      (entryOffset index) = logical % 4294967296 :=
    @readLe32_overwrite_part root (entryOffset index) []
      (le16 1 ++ le16 (phys / 4294967296) ++ le32 phys) logical inside
  have length : readLe16 (overwrite root (entryOffset index) (extentBytes logical phys))
      (entryOffset index + 4) = 1 :=
    @readLe16_overwrite_part root (entryOffset index) (le32 logical)
      (le16 (phys / 4294967296) ++ le32 phys) 1 inside
  have high : readLe16 (overwrite root (entryOffset index) (extentBytes logical phys))
      (entryOffset index + 6) = phys / 4294967296 % 65536 :=
    @readLe16_overwrite_part root (entryOffset index) (le32 logical ++ le16 1)
      (le32 phys) (phys / 4294967296) inside
  have low : readLe32 (overwrite root (entryOffset index) (extentBytes logical phys))
      (entryOffset index + 8) = phys % 4294967296 :=
    @readLe32_overwrite_part root (entryOffset index)
      (le32 logical ++ le16 1 ++ le16 (phys / 4294967296)) [] phys inside
  rw [extentAt, block, length, high, low]
  congr 1
  omega

theorem append_extent (leaf : Leaf root) (room : entryCount root ≤ 3)
    (small : phys < 281474976710656) :
    Leaf (overwrite (overwrite root (entryOffset (entryCount root)) (extentBytes logical phys)) 2
        (le16 (entryCount root + 1))) ∧
      ∀ other, leafSearch (overwrite (overwrite root (entryOffset (entryCount root))
          (extentBytes logical phys)) 2 (le16 (entryCount root + 1))) other =
        (leafSearch root other).or (if other = logical % 4294967296 then some phys else none) := by
  have whole := leaf.whole
  generalize isCount : entryCount root = count at room ⊢
  have place : entryOffset count + (extentBytes logical phys).length ≤ root.length := by
    rw [whole, entryOffset]
    change _ + 12 ≤ _
    omega
  have added := @extentAt_extentBytes root logical phys count (by omega) small
  have grown := leaf.of_overwrite place (Nat.le_add_right 12 _)
  rcases grown.withCount (show count + 1 ≤ 4 by omega) with ⟨isLeaf, newCount, same⟩
  have earlier : ∀ index < count, extentAt (overwrite (overwrite root (entryOffset count)
      (extentBytes logical phys)) 2 (le16 (count + 1))) index = extentAt root index := by
    intro index before
    rw [same, extentAt_overwrite place]
    rw [entryOffset, entryOffset]
    omega
  refine ⟨isLeaf, fun other => ?_⟩
  rw [leafSearch_succ isLeaf.whole newCount (by omega), leafSearch_eq whole (by omega), isCount,
    findSome_congr earlier, same, added, Extent.find]
  dsimp only
  congr 1
  by_cases here : other = logical % 4294967296
  · rw [if_pos here, if_pos (by omega), here, Nat.sub_self, add_zero]
  · rw [if_neg here, if_neg (by omega)]

theorem initRoot_leaf (whole : root.length = 60) (fresh : readLe16 root 0 ≠ extentMagic) :
    Leaf (initRoot root) ∧ ∀ other, leafSearch (initRoot root) other = none := by
  have low : 0 ≤ root.length := Nat.zero_le _
  have magic := @readLe16_overwrite_part root 0 [] (le16 0 ++ le16 4 ++ le16 0 ++ le32 0)
    extentMagic low
  have noEntries := @readLe16_overwrite_part root 0 (le16 extentMagic) (le16 4 ++ le16 0 ++ le32 0)
    0 low
  have depth := @readLe16_overwrite_part root 0 (le16 extentMagic ++ le16 0 ++ le16 4) (le32 0) 0
    low
  rw [initRoot, if_pos fresh]
  have length := length_overwrite (show 0 + (le16 extentMagic ++ le16 0 ++ le16 4 ++ le16 0 ++
    le32 0).length ≤ root.length by rw [whole]; decide)
  have few := (le_of_eq noEntries).trans (Nat.zero_le 4)
  refine ⟨⟨length.trans whole, magic, depth, few⟩, fun other => ?_⟩
  rw [leafSearch_eq (length.trans whole) few]
  exact congrArg (fun count => (List.range count).findSome? _) noEntries

/-- An insertion adds one block to the map, where nothing is found before it. The number
of the logical block is cut to 32 bits in a new extent. -/
theorem extentInsert_ok (whole : root.length = 60)
    (few : readLe16 root 0 = extentMagic → entryCount root ≤ 4) (small : phys < 281474976710656)
    (done : extentInsert root logical phys = .ok next) :
    Leaf next ∧ ∃ key old, (logical < 4294967296 → key = logical) ∧
      (Leaf root ∧ old = leafSearch root ∨ readLe16 root 0 ≠ extentMagic ∧ old = fun _ => none) ∧
      ∀ other, leafSearch next other =
        (old other).or (if other = key then some phys else none) := by
  have inserted : ∀ start, Leaf start → initRoot root = start → Leaf next ∧
      ∃ key, (logical < 4294967296 → key = logical) ∧ ∀ other, leafSearch next other =
        (leafSearch start other).or (if other = key then some phys else none) := by
    intro start leaf isStart
    rw [extentInsert, isStart] at done
    split at done
    next deep => cases done
    cases extended : extendLast start logical phys with
    | some longer =>
      simp only [extended] at done
      cases done
      rcases extendLast_some leaf extended with ⟨isLeaf, found⟩
      exact ⟨isLeaf, logical, fun _ => rfl, found⟩
    | none =>
      simp only [extended] at done
      split at done
      next => cases done
      split at done
      next => cases done
      next fits =>
      cases done
      have room : entryCount start ≤ 3 := by
        rw [entryOffset] at fits
        omega
      rcases @append_extent start logical phys leaf room small with ⟨isLeaf, found⟩
      exact ⟨isLeaf, logical % 4294967296, Nat.mod_eq_of_lt, found⟩
  by_cases magic : readLe16 root 0 = extentMagic
  · have kept : initRoot root = root := if_neg (not_not_intro magic)
    have isLeaf : nodeDepth root = 0 := by
      by_contra deep
      rw [extentInsert, kept, if_pos deep] at done
      cases done
    have leaf : Leaf root := ⟨whole, magic, isLeaf, few magic⟩
    rcases inserted root leaf kept with ⟨nextLeaf, key, isKey, found⟩
    exact ⟨nextLeaf, key, _, isKey, .inl ⟨leaf, rfl⟩, found⟩
  · rcases initRoot_leaf whole magic with ⟨leaf, empty⟩
    rcases inserted (initRoot root) leaf rfl with ⟨nextLeaf, key, isKey, found⟩
    exact ⟨nextLeaf, key, _, isKey, .inr ⟨magic, funext empty⟩, found⟩

end Qunix.Fs.Ext4.Ext4Fs
