import Qunix.Fs.Fat32.Operations
import Qunix.Fs.Fat32.Slots

/-! # Storing the data of a file

`write` writes the data to the chain of the file, or to a new chain if it has none, and then the
start of the chain and the size into its entry.
-/

namespace Qunix.Fs.Fat32.Bpb

open Foundation Bytes FlatArray LinkedChains List

variable {bpb : Bpb} {disk after : Disk} {start cluster place : Nat} {old cells : List Nat}
variable {data : List UInt8}

/-! ## Free clusters -/

def freeClusters (bpb : Bpb) (disk : Disk) : List Nat :=
  (List.range bpb.entryCount).filter fun cluster => 2 ≤ cluster ∧ bpb.fatGet disk cluster = 0

theorem mem_freeClusters : cluster ∈ bpb.freeClusters disk ↔
    bpb.IsCluster cluster ∧ bpb.fatGet disk cluster = 0 := by
  simp only [freeClusters, mem_filter, mem_range, decide_eq_true_eq, IsCluster]
  omega

theorem Grown.length_le (grown : bpb.Grown disk start old after cells) :
    cells.length ≤ old.length + (bpb.freeClusters disk).length ∧
      ((∀ cluster, bpb.IsCluster cluster → bpb.fatGet after cluster ≠ 0) →
        (∀ cluster ∈ old, bpb.Used disk cluster) →
        cells.length = old.length + (bpb.freeClusters disk).length) := by
  rcases grown.longer with ⟨new, rfl, allFree⟩
  have nodup : new.Nodup := (nodup_append.mp grown.linked.nodup).2.1
  have newFree : new ⊆ bpb.freeClusters disk := by
    intro cluster member
    exact mem_freeClusters.mpr
      ⟨(grown.used cluster (mem_append_right _ member)).1, allFree cluster member⟩
  have atMost := (nodup.subperm newFree).length_le
  rw [length_append]
  refine ⟨by omega, ?_⟩
  intro full oldUsed
  have allTaken : bpb.freeClusters disk ⊆ new := by
    intro cluster member
    rcases mem_freeClusters.mp member with ⟨isCluster, isFree⟩
    by_contra notNew
    -- A cluster outside of the chain would still be free.
    have outside : cluster ∉ old ++ new := by
      intro inChain
      rcases mem_append.mp inChain with inOld | isNew
      · exact (oldUsed cluster inOld).2 isFree
      · exact notNew isNew
    apply full cluster isCluster
    rw [(grown.spares cluster isCluster outside).1, isFree]
  have nodupFree : (bpb.freeClusters disk).Nodup := nodup_range.filter _
  have atLeast := (nodupFree.subperm allTaken).length_le
  omega

/-! ## A new chain -/

theorem Sized.copyCluster_eq (sized : bpb.Sized disk) (fits : bpb.Representable)
    (isCluster : bpb.IsCluster cluster) :
    bpb.copyCluster disk cluster data = patch disk (bpb.clusterPlace cluster) data := by
  rw [copyCluster, clusterSize_eq, sized.clusterToOffset_eq fits isCluster]
  split
  next => rfl
  next outside =>
    have none : data = [] := by
      by_contra something
      exact outside ⟨sized.clusters cluster isCluster, something⟩
    rw [none, patch, store_nil]

theorem Good.copyParts (good : bpb.Good disk) (fits : bpb.Representable)
    (isCluster : ∀ cell ∈ cells, bpb.IsCluster cell) :
    let after := inParts bpb.copyCluster bpb.clusterSize cells data disk
    bpb.Good after ∧
      (∀ cluster, bpb.IsCluster cluster → bpb.fatGet after cluster = bpb.fatGet disk cluster) ∧
      bpb.Spares cells disk after := by
  induction cells generalizing disk data with
  | nil => exact ⟨good, fun _ _ => rfl, Spares.refl⟩
  | cons cell rest induction =>
    have here := isCluster cell mem_cons_self
    have short : (data.take bpb.clusterSize).length ≤ bpb.clusterLength := by
      rw [length_take, clusterSize_eq]
      exact min_le_left _ _
    have copied := @Sized.copyCluster_eq bpb disk cell (data.take bpb.clusterSize) good.sized fits
      here
    have copyGood : bpb.Good (bpb.copyCluster disk cell (data.take bpb.clusterSize)) := by
      rw [copied]
      exact good.patch le_rfl
    have copySpares : bpb.Spares [cell] disk
        (bpb.copyCluster disk cell (data.take bpb.clusterSize)) := by
      rw [copied]
      exact good.spares_patch fits here le_rfl (by omega)
    rcases @induction _ (data.drop bpb.clusterSize) copyGood fun other member =>
      isCluster other (mem_cons_of_mem _ member) with ⟨goodAfter, entries, spares⟩
    intro after
    have isAfter : after = inParts bpb.copyCluster bpb.clusterSize rest
        (data.drop bpb.clusterSize) (bpb.copyCluster disk cell (data.take bpb.clusterSize)) := by
      change inParts bpb.copyCluster bpb.clusterSize (cell :: rest) data disk = _
      rw [inParts]
    rw [isAfter]
    refine ⟨goodAfter, ?_, ?_⟩
    · intro cluster otherIsCluster
      refine (entries cluster otherIsCluster).trans ?_
      rw [copied]
      exact good.fatGet_patch fits le_rfl otherIsCluster.2
    · exact (copySpares.mono (by simp)).trans (spares.mono (subset_cons_self _ _))

/-- The number of clusters that a new chain gets. -/
def newCount (bpb : Bpb) (data : List UInt8) : Nat := max 1 (bpb.clusterCount data)

theorem allocChain_count (positive : 0 < bpb.clusterLength) :
    1 + (max (data.length + bpb.clusterSize - 1) 1 / bpb.clusterSize - 1) = bpb.newCount data := by
  rw [newCount, clusterCount, clusterSize_eq]
  rcases Nat.eq_zero_or_pos data.length with none | some
  · have zero : (0 + bpb.clusterLength - 1) / bpb.clusterLength = 0 :=
      Nat.div_eq_of_lt (by omega)
    have atMost : max (0 + bpb.clusterLength - 1) 1 / bpb.clusterLength ≤ 1 := by
      rw [Nat.div_le_iff_le_mul_add_pred positive]
      omega
    rw [none, zero]
    omega
  · have larger : max (data.length + bpb.clusterLength - 1) 1 =
        data.length + bpb.clusterLength - 1 := by
      omega
    rw [larger]
    omega

theorem Good.allocChain (good : bpb.Good disk) (fits : bpb.Representable) (ends : Ends start)
    (data : List UInt8) :
    ∃ result after, bpb.allocChain disk data = (result, after) ∧
      ((result = none ∧ ∃ longer, bpb.Grown disk start [] after longer ∧
          longer.length < bpb.newCount data ∧
          ∀ cluster, bpb.IsCluster cluster → bpb.fatGet after cluster ≠ 0) ∨
        ∃ first cells, result = some first ∧ cells.length = bpb.newCount data ∧
          bpb.Placed disk [] first after cells) := by
  have positive : 0 < bpb.clusterLength := Nat.mul_pos good.sized.someSectors good.sized.someBytes
  have empty : bpb.Grown disk start [] disk [] :=
    ChainOf.grown ⟨ends, by simp⟩ good
  have count := @allocChain_count bpb data positive
  rw [Bpb.allocChain]
  rcases good.allocCluster fits with ⟨full, noneFree⟩ |
    ⟨head, middle, allocated, isCluster, isFree, middleGood, isEnd, _, spares⟩
  · rw [full]
    refine ⟨none, disk, rfl, .inl ⟨rfl, [], empty, ?_, noneFree⟩⟩
    rw [length_nil]
    omega
  rw [allocated]
  have one : bpb.Grown disk start [] middle [head] :=
    empty.join fits isCluster isFree middleGood isEnd spares
  rcases one.extend fits (max (data.length + bpb.clusterSize - 1) 1 / bpb.clusterSize - 1) with
    ⟨result, last, longer, done, grown, inFront, outcome⟩
  have length : [head].length = 1 := rfl
  rcases outcome with ⟨rfl, short, noneFree⟩ | ⟨rfl, whole⟩
  · refine ⟨none, last, ?_, .inl ⟨rfl, longer, grown, by omega, noneFree⟩⟩
    dsimp only
    rw [done]
  have isCluster : ∀ cell ∈ longer, bpb.IsCluster cell := fun cell member =>
    (grown.used cell member).1
  rcases @Good.copyParts bpb last longer data grown.good fits isCluster with
    ⟨goodAfter, entries, sparesAfter⟩
  refine ⟨some head, inParts bpb.copyCluster bpb.clusterSize longer data last, ?_,
    .inr ⟨head, longer, rfl, by omega, ?_⟩⟩
  · dsimp only
    rw [done]
  -- The first cluster was taken first and stays in front.
  have starts : longer.head?.getD start = head := by
    rcases inFront with ⟨more, rfl⟩
    rfl
  rcases grown.longer with ⟨new, isNew, allFree⟩
  have linked := grown.linked
  rw [starts] at linked
  have chain : bpb.ChainOf last head longer := ⟨linked, grown.used⟩
  refine ⟨goodAfter, ?_, by simp, ?_, ?_⟩
  · exact chain.congr fun cluster member => entries cluster (isCluster cluster member)
  · intro cluster member _
    rw [isNew] at member
    exact allFree cluster member
  · exact grown.spares.trans sparesAfter

/-! ## The chain of a file -/

theorem Placed.length_le {first : Nat} (placed : bpb.Placed disk old first after cells) :
    cells.length ≤ old.length + (bpb.freeClusters disk).length := by
  have known : cells ⊆ old ++ bpb.freeClusters disk := by
    intro cluster member
    by_cases inOld : cluster ∈ old
    · exact mem_append_left _ inOld
    · exact mem_append_right _
        (mem_freeClusters.mpr
          ⟨(placed.chain.used cluster member).1, placed.taken cluster member inOld⟩)
  have atMost := (placed.chain.linked.nodup.subperm known).length_le
  rwa [length_append] at atMost

/-- How data is stored for a file whose chain has the clusters `old`. -/
structure DataStored (bpb : Bpb) (disk : Disk) (start : Nat) (old : List Nat) (data : List UInt8)
    (target : Nat) (after : Disk) (edited : List Nat) : Prop where
  good : bpb.Good after
  spares : bpb.Spares edited disk after
  taken : ∀ cluster ∈ edited, cluster ∉ old → bpb.fatGet disk cluster = 0
  stays : old ≠ [] → target = start
  outcome :
    (old.length + (bpb.freeClusters disk).length < bpb.newCount data ∧
        bpb.Grown disk start old after edited) ∨
      (bpb.newCount data ≤ old.length + (bpb.freeClusters disk).length ∧
        ∃ cells, cells.length = bpb.newCount data ∧ bpb.Placed disk old target after cells ∧
          (old ≠ [] → cells.flatMap (bpb.content after) =
            data ++ List.replicate (cells.length * bpb.clusterLength - data.length) 0))

theorem Grown.dataStored {target : Nat} {longer : List Nat}
    (grown : bpb.Grown disk start old after longer)
    (used : ∀ cluster ∈ old, bpb.Used disk cluster) (short : longer.length < bpb.newCount data)
    (full : ∀ cluster, bpb.IsCluster cluster → bpb.fatGet after cluster ≠ 0)
    (stays : old ≠ [] → target = start) :
    bpb.DataStored disk start old data target after longer where
  good := grown.good
  spares := grown.spares
  taken := by
    intro cluster member notOld
    rcases grown.longer with ⟨new, rfl, allFree⟩
    exact allFree cluster ((mem_append.mp member).resolve_left notOld)
  stays := stays
  outcome := by
    have length := grown.length_le.2 full used
    exact .inl ⟨by omega, grown⟩

theorem Placed.dataStored {target : Nat} (placed : bpb.Placed disk old target after cells)
    (length : cells.length = bpb.newCount data) (stays : old ≠ [] → target = start)
    (contents : old ≠ [] → cells.flatMap (bpb.content after) =
      data ++ List.replicate (cells.length * bpb.clusterLength - data.length) 0) :
    bpb.DataStored disk start old data target after (old ++ cells) where
  good := placed.good
  spares := placed.spares
  taken := by
    intro cluster member notOld
    exact placed.taken cluster ((mem_append.mp member).resolve_left notOld) notOld
  stays := stays
  outcome := .inr ⟨length ▸ placed.length_le, cells, length, placed, contents⟩

theorem ChainOf.storeData (chain : bpb.ChainOf disk start old) (fits : bpb.Representable)
    (good : bpb.Good disk) (short : old = [] → start < 2) (some : old ≠ [] → data ≠ []) :
    ∃ target after edited, bpb.storeData disk start data = Option.some (target, after) ∧
      bpb.DataStored disk start old data target after edited := by
  rw [Bpb.storeData]
  by_cases none : old = []
  · have noChain := short none
    subst none
    rw [if_neg (by omega)]
    rcases good.allocChain fits (fun both => by omega : Ends start) data with
      ⟨result, after, run, ⟨rfl, longer, grown, less, full⟩ | ⟨first, cells, rfl, length, placed⟩⟩
    · rw [run]
      exact ⟨_, after, longer, rfl, grown.dataStored (by simp) less full (by simp)⟩
    · rw [run]
      exact ⟨_, after, _, rfl, placed.dataStored length (by simp) (by simp)⟩
  · have isChain : 2 ≤ start := by
      rcases exists_cons_of_ne_nil none with ⟨head, tail, rfl⟩
      rw [chain.linked.1]
      exact (chain.used head mem_cons_self).1.1
    have count : bpb.newCount data = bpb.clusterCount data :=
      max_eq_right (clusterCount_bounds good.sized (some none)).1
    rw [if_pos isChain]
    rcases chain.writeChain fits good (some none) with
      ⟨result, after, run, ⟨rfl, longer, grown, less, full⟩ |
        ⟨first, cells, rfl, length, starts, stored⟩⟩
    · rw [run]
      exact ⟨_, after, longer, rfl, grown.dataStored chain.used (count ▸ less) full fun _ => rfl⟩
    · rw [run]
      exact ⟨_, after, _, rfl, stored.toPlaced.dataStored (length.trans count.symm) starts
        fun _ => stored.contents⟩

theorem DataStored.outside {target other : Nat} {edited beside : List Nat}
    (stored : bpb.DataStored disk start old data target after edited)
    (chain : bpb.ChainOf disk other beside) (apart : ∀ cluster ∈ beside, cluster ∉ old) :
    ∀ cluster ∈ beside, cluster ∉ edited := by
  intro cluster member isEdited
  exact (chain.used cluster member).2 (stored.taken cluster isEdited (apart cluster member))

end Qunix.Fs.Fat32.Bpb
