import Mathlib.Data.List.Find
import Qunix.Fs.Fat32.ChainWrite
import Qunix.Fs.Fat32.Directory

/-! # The slots of a directory

The slots of all clusters of a directory are one list of places. A search goes through that
list, and an edit of one slot leaves the other slots, the tables and the other clusters alone.
-/

namespace Qunix.Fs.Fat32.Bpb

open Foundation Bytes FlatArray LinkedChains List

variable {bpb : Bpb} {disk after : Disk} {cluster start place other offset : Nat}
variable {cells : List Nat} {data : List UInt8}

/-! ## Places -/

structure Slotted (bpb : Bpb) : Prop where
  whole : bpb.clusterLength % 32 = 0
  some : 0 < bpb.clusterLength

def slotCount (bpb : Bpb) : Nat := bpb.clusterLength / 32

def placesOf (bpb : Bpb) (cluster : Nat) : List Nat :=
  (List.range bpb.slotCount).map fun index => bpb.clusterPlace cluster + index * 32

def places (bpb : Bpb) (cells : List Nat) : List Nat := cells.flatMap bpb.placesOf

def slotAt (disk : Disk) (place : Nat) : List UInt8 := load disk.bytes place 32

theorem Slotted.length_eq (slotted : bpb.Slotted) : bpb.clusterLength = bpb.slotCount * 32 := by
  rw [slotCount, Nat.div_mul_cancel (Nat.dvd_of_mod_eq_zero slotted.whole)]

theorem mem_placesOf : place ∈ bpb.placesOf cluster ↔
    ∃ index < bpb.slotCount, bpb.clusterPlace cluster + index * 32 = place := by
  simp only [placesOf, mem_map, mem_range]

theorem Slotted.bounds (slotted : bpb.Slotted) (isPlace : place ∈ bpb.placesOf cluster) :
    bpb.clusterPlace cluster ≤ place ∧
      place + 32 ≤ bpb.clusterPlace cluster + bpb.clusterLength := by
  rcases mem_placesOf.mp isPlace with ⟨index, inside, rfl⟩
  have length := slotted.length_eq
  omega

theorem Slotted.apart (slotted : bpb.Slotted) {second : Nat}
    (isPlace : place ∈ bpb.placesOf cluster)
    (isOther : other ∈ bpb.placesOf second) (different : place ≠ other) :
    place + 32 ≤ other ∨ other + 32 ≤ place := by
  have aligned : ∀ cluster place, place ∈ bpb.placesOf cluster →
      ∃ count, place = bpb.clusterPlace 2 + count * 32 := by
    intro cluster place isPlace
    rcases mem_placesOf.mp isPlace with ⟨index, _, rfl⟩
    refine ⟨(cluster - 2) * bpb.slotCount + index, ?_⟩
    rw [clusterPlace_eq, slotted.length_eq, ← mul_assoc, add_mul, add_assoc]
  rcases aligned _ _ isPlace with ⟨first, rfl⟩
  rcases aligned _ _ isOther with ⟨last, rfl⟩
  omega

@[simp] theorem places_nil : bpb.places [] = [] := rfl

theorem mem_places :
    place ∈ bpb.places cells ↔ ∃ cluster ∈ cells, place ∈ bpb.placesOf cluster := by
  simp only [places, mem_flatMap]

/-! ## Reading slots -/

theorem Sized.slotPlaces_eq (sized : bpb.Sized disk) (fits : bpb.Representable)
    (slotted : bpb.Slotted) (isCluster : bpb.IsCluster cluster) :
    bpb.slotPlaces disk cluster = bpb.placesOf cluster := by
  rw [slotPlaces, clusterSize_eq, sized.clusterToOffset_eq fits isCluster, ← slotCount, ← placesOf]
  apply List.filter_eq_self.mpr
  intro place isPlace
  have bounds := slotted.bounds isPlace
  have inside := sized.clusters cluster isCluster
  exact decide_eq_true (by omega)

section Search

variable {wanted : List UInt8 → Prop} [DecidablePred wanted]

theorem ChainOf.seekSlot (chain : bpb.ChainOf disk start cells) (sized : bpb.Sized disk)
    (fits : bpb.Representable) (slotted : bpb.Slotted) {fuel : Nat} (enough : cells.length ≤ fuel) :
    bpb.seekSlot wanted disk fuel start =
      some ((bpb.places cells).find? fun place => wanted (slotAt disk place)) := by
  induction cells generalizing start fuel with
  | nil =>
    have ends : Ends start := chain.linked
    cases fuel with
    | zero => rw [Bpb.seekSlot, if_pos ends, places_nil, find?_nil]
    | succ fuel => rw [Bpb.seekSlot, if_pos ends, places_nil, find?_nil]
  | cons cell rest induction =>
    rcases chain with ⟨⟨rfl, notEnds, later⟩, used⟩
    cases fuel with
    | zero => simp at enough
    | succ fuel =>
      have laterChain : bpb.ChainOf disk (bpb.fatGet disk start) rest :=
        ⟨later, fun cell member => used cell (mem_cons_of_mem _ member)⟩
      have isCluster := (used start mem_cons_self).1
      have found : bpb.findSlot wanted disk start =
          (bpb.placesOf start).find? fun place => wanted (slotAt disk place) := by
        rw [findSlot, sized.slotPlaces_eq fits slotted isCluster]
        rfl
      rw [Bpb.seekSlot, if_neg notEnds, found, Bpb.places, flatMap_cons, find?_append]
      cases (bpb.placesOf start).find? fun place => wanted (slotAt disk place) with
      | some place => rfl
      | none => exact induction laterChain (Nat.le_of_succ_le_succ enough)

end Search

/-! ## Edits of a slot -/

section Patch

variable (good : bpb.Good disk) (fits : bpb.Representable) (isCluster : bpb.IsCluster cluster)
  (low : bpb.clusterPlace cluster ≤ place)
  (high : place + data.length ≤ bpb.clusterPlace cluster + bpb.clusterLength)

include low in
theorem entryBytes_patch {fat : Nat} (inFats : fat < bpb.numFats)
    (inTable : other < bpb.entryCount) :
    bpb.entryBytes (patch disk place data) fat other = bpb.entryBytes disk fat other := by
  apply load_store_outside
  have before := entry_before_clusters inFats inTable cluster
  exact .inr (le_trans before low)

include good low in
theorem Good.patch : bpb.Good (patch disk place data) where
  sized := good.sized.of_size rfl
  agree := by
    intro fat inFats other inTable
    rw [entryBytes_patch low inFats inTable, entryBytes_patch low good.sized.someFats inTable,
      good.agree fat inFats other inTable]

include good fits low in
theorem Good.fatGet_patch (inTable : other < bpb.entryCount) :
    bpb.fatGet (Bpb.patch disk place data) other = bpb.fatGet disk other := by
  have after : bpb.Good (Bpb.patch disk place data) := good.patch low
  rw [after.sized.fatGet_eq fits inTable, good.sized.fatGet_eq fits inTable,
    entryBytes_patch low good.sized.someFats inTable]

include good fits isCluster low high in
theorem Good.spares_patch : bpb.Spares [cluster] disk (Bpb.patch disk place data) := by
  intro other otherIsCluster outside
  have different : other ≠ cluster := by simpa using outside
  refine ⟨good.fatGet_patch fits low otherIsCluster.2, ?_⟩
  apply load_store_outside
  have gap := @clusters_apart bpb other cluster otherIsCluster.1 isCluster.1 different
  omega

end Patch

theorem Slotted.slotAt_patch (slotted : bpb.Slotted) {second : Nat}
    (isPlace : place ∈ bpb.placesOf cluster) (isOther : other ∈ bpb.placesOf second)
    (inside : offset + data.length ≤ 32) :
    slotAt (patch disk (place + offset) data) other =
      if other = place then overwrite (slotAt disk place) offset data else slotAt disk other := by
  rw [slotAt, patch]
  split
  next same =>
    rw [same, load_store_inside (by omega) (by omega), Nat.add_sub_cancel_left]
    rfl
  next different =>
    apply load_store_outside
    have apart := slotted.apart isOther isPlace different
    omega

/-! ## One slot is edited -/

/-- A slot has changed and nothing else has. -/
structure SlotEdit (bpb : Bpb) (disk after : Disk) (place : Nat) (slot : List UInt8) : Prop where
  good : bpb.Good after
  entries : ∀ cluster, bpb.IsCluster cluster → bpb.fatGet after cluster = bpb.fatGet disk cluster
  contents : ∀ cluster, bpb.IsCluster cluster → place ∉ bpb.placesOf cluster →
    bpb.content after cluster = bpb.content disk cluster
  here : slotAt after place = slot
  others : ∀ cluster, ∀ other ∈ bpb.placesOf cluster, other ≠ place →
    slotAt after other = slotAt disk other

theorem Good.slotEdit (good : bpb.Good disk) (fits : bpb.Representable) (slotted : bpb.Slotted)
    (isCluster : bpb.IsCluster cluster) (isPlace : place ∈ bpb.placesOf cluster)
    (inside : offset + data.length ≤ 32) :
    bpb.SlotEdit disk (Bpb.patch disk (place + offset) data) place
      (overwrite (slotAt disk place) offset data) := by
  have bounds := slotted.bounds isPlace
  have low : bpb.clusterPlace cluster ≤ place + offset := by
    omega
  refine ⟨good.patch low, fun other otherIsCluster => good.fatGet_patch fits low otherIsCluster.2,
    ?_, ?_, ?_⟩
  · intro other otherIsCluster elsewhere
    apply (good.spares_patch fits isCluster low (by omega) other otherIsCluster _).2
    intro same
    rw [mem_singleton.mp same] at elsewhere
    exact elsewhere isPlace
  · rw [slotted.slotAt_patch isPlace isPlace inside, if_pos rfl]
  · intro second other isOther different
    rw [slotted.slotAt_patch isPlace isOther inside, if_neg different]

theorem SlotEdit.trans {middle : Disk} {slot final : List UInt8}
    (first : bpb.SlotEdit disk middle place slot) (second : bpb.SlotEdit middle after place final) :
    bpb.SlotEdit disk after place final where
  good := second.good
  entries := by
    intro cluster isCluster
    rw [second.entries cluster isCluster, first.entries cluster isCluster]
  contents := by
    intro cluster isCluster elsewhere
    rw [second.contents cluster isCluster elsewhere, first.contents cluster isCluster elsewhere]
  here := second.here
  others := by
    intro cluster other isOther different
    rw [second.others cluster other isOther different, first.others cluster other isOther different]

theorem SlotEdit.chainOf {slot : List UInt8} (edit : bpb.SlotEdit disk after place slot)
    (chain : bpb.ChainOf disk start cells) : bpb.ChainOf after start cells := by
  apply chain.congr
  intro cluster member
  exact edit.entries cluster (chain.used cluster member).1

/-! ## The fields of a slot -/

@[simp] theorem length_slotAt : (slotAt disk place).length = 32 := length_load

/-- The record of an entry points to another chain. -/
def retarget (slot : List UInt8) (cluster size : Nat) : List UInt8 :=
  overwrite (overwrite slot 20 (le16 (cluster / 65536))) 26 (le16 cluster ++ le32 size)

section Retarget

variable {slot : List UInt8} (whole : slot.length = 32) (target size : Nat)

include whole

theorem size_retarget : Slot.size (retarget slot target size) = size % 4294967296 := by
  have part := @readLe32_overwrite_part (overwrite slot 20 (le16 (target / 65536))) 26 (le16 target)
    [] size (by rw [length_overwrite (by rw [whole, length_le16]; decide), whole]; decide)
  exact part

theorem cluster_retarget : Slot.cluster (retarget slot target size) = target % 4294967296 := by
  have first : (overwrite slot 20 (le16 (target / 65536))).length = 32 := by
    rw [length_overwrite (by rw [whole, length_le16]; decide), whole]
  have low := @readLe16_overwrite_part (overwrite slot 20 (le16 (target / 65536))) 26 []
    (le32 size) target (by rw [first]; decide)
  rw [nil_append, length_nil, add_zero] at low
  have high : readLe16 (retarget slot target size) 20 = target / 65536 % 65536 := by
    rw [retarget, readLe16_overwrite_outside, readLe16_overwrite_here]
    · rw [whole]
      decide
    · rw [first, length_append, length_le16, length_le32]
    · exact .inl (by decide)
  rw [Slot.cluster, high]
  rw [retarget, low]
  omega

end Retarget

theorem ChainOf.updateDirentSize {name83 : List UInt8} (chain : bpb.ChainOf disk start cells)
    (good : bpb.Good disk) (fits : bpb.Representable) (slotted : bpb.Slotted)
    (found : ((bpb.places cells).find? fun place => Slot.name83 (slotAt disk place) = name83) =
      some place) (target size : Nat) :
    ∃ after, bpb.updateDirentSize disk start name83 target size = some after ∧
      bpb.SlotEdit disk after place (retarget (slotAt disk place) target size) := by
  rcases mem_places.mp (mem_of_find?_eq_some found) with ⟨cluster, member, isPlace⟩
  have isCluster := (chain.used cluster member).1
  have first : bpb.SlotEdit disk (patch disk (place + 20) (le16 (target / 65536))) place _ :=
    good.slotEdit fits slotted isCluster isPlace (by rw [length_le16]; decide)
  have second := @Good.slotEdit bpb _ cluster place 26 (le16 target ++ le32 size) first.good fits
    slotted isCluster isPlace (by rw [length_append, length_le16, length_le32])
  have both := first.trans second
  rw [first.here] at both
  refine ⟨_, ?_, both⟩
  rw [Bpb.updateDirentSize,
    chain.seekSlot good.sized fits slotted (chain.length_le_eoc fits), Option.map_some, found]

end Qunix.Fs.Fat32.Bpb
