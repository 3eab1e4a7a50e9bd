import Qunix.Fs.Fat32.ChainEdits

/-! # Writing a chain

`write_chain` gives a chain the length and the contents of its data and leaves every other
chain alone. The offsets of an image that the kernel can hold fit into 32 bits.
-/

namespace Qunix.Fs.Fat32

open Foundation Bytes FlatArray LinkedChains List Option

namespace Bpb

variable {bpb : Bpb} {disk after : Disk} {start first : Nat} {cells old : List Nat}
variable {data : List UInt8}

/-- The clusters of a chain, all of them in use. -/
structure ChainOf (bpb : Bpb) (disk : Disk) (start : Nat) (cells : List Nat) : Prop where
  linked : Chain Ends (bpb.fatGet disk) start cells
  used : ∀ cluster ∈ cells, bpb.Used disk cluster

def clusterCount (bpb : Bpb) (data : List UInt8) : Nat :=
  (data.length + bpb.clusterLength - 1) / bpb.clusterLength

/-- What is right after the data has been written. -/
structure Written (bpb : Bpb) (disk : Disk) (old : List Nat) (data : List UInt8) (first : Nat)
    (after : Disk) : Prop where
  chain : ∃ cells, bpb.ChainOf after first cells ∧ cells.length = bpb.clusterCount data ∧
    ∀ cluster ∈ old, cluster ∉ cells → bpb.fatGet after cluster = 0
  reads : bpb.readChain after first =
    some (data ++ List.replicate (bpb.clusterCount data * bpb.clusterLength - data.length) 0)
  agree : bpb.CopiesAgree after
  others : ∀ start cells, bpb.ChainOf disk start cells → (∀ cluster ∈ cells, cluster ∉ old) →
    bpb.ChainOf after start cells ∧ bpb.readChain after start = bpb.readChain disk start

section

variable (chain : bpb.ChainOf disk start cells)

include chain

theorem ChainOf.length_le_eoc (fits : bpb.Representable) :
    cells.length ≤ fatEoc := by
  have short : cells.length ≤ bpb.entryCount := by
    apply chain.linked.length_le
    intro cluster member
    exact (chain.used cluster member).1.2
  exact le_trans short fits.numbers

theorem ChainOf.chainFrom (fits : bpb.Representable) :
    bpb.chainFrom disk start = some cells := by
  apply chain.linked.walk
  exact chain.length_le_eoc fits

theorem ChainOf.readChain (fits : bpb.Representable) (sized : bpb.Sized disk) :
    bpb.readChain disk start = some (cells.flatMap (bpb.content disk)) := by
  rw [Bpb.readChain, chain.chainFrom fits, map_some]
  congr 1
  apply flatMap_congr
  intro cluster member
  exact sized.clusterBytes_eq fits (chain.used cluster member).1

theorem ChainOf.congr
    (entries : ∀ cluster ∈ cells, bpb.fatGet after cluster = bpb.fatGet disk cluster) :
    bpb.ChainOf after start cells where
  linked := chain.linked.congr entries
  used := by
    intro cluster member
    refine ⟨(chain.used cluster member).1, ?_⟩
    rw [entries cluster member]
    exact (chain.used cluster member).2

theorem ChainOf.spared {edited : List Nat} (spares : bpb.Spares edited disk after)
    (apart : ∀ cluster ∈ cells, cluster ∉ edited) :
    bpb.ChainOf after start cells := by
  apply chain.congr
  intro cluster member
  exact (spares cluster (chain.used cluster member).1 (apart cluster member)).1

end

theorem clusterCount_bounds (sized : bpb.Sized disk) (some : data ≠ []) :
    0 < bpb.clusterCount data ∧ data.length ≤ bpb.clusterCount data * bpb.clusterLength := by
  have positive : 0 < bpb.clusterLength := Nat.mul_pos sized.someSectors sized.someBytes
  have length : 0 < data.length := List.length_pos_iff.mpr some
  constructor
  · exact Nat.div_pos (by omega) positive
  · have division := Nat.div_add_mod (data.length + bpb.clusterLength - 1) bpb.clusterLength
    have remainder := Nat.mod_lt (data.length + bpb.clusterLength - 1) positive
    rw [mul_comm] at division
    rw [clusterCount]
    omega

theorem ChainOf.grown (chain : bpb.ChainOf disk start old) (good : bpb.Good disk) :
    bpb.Grown disk start old disk old where
  good := good
  used := chain.used
  linked := by
    have linked := chain.linked
    cases old with
    | nil => exact linked
    | cons head tail =>
      rcases linked with ⟨rfl, rest⟩
      exact ⟨rfl, rest⟩
  longer := ⟨[], (append_nil old).symm, by simp⟩
  spares := Spares.refl

/-- A chain in the place of another: it has clusters of the old one and clusters that were free,
and the rest of the old one is free. -/
structure Placed (bpb : Bpb) (disk : Disk) (old : List Nat) (first : Nat) (after : Disk)
    (cells : List Nat) : Prop where
  good : bpb.Good after
  chain : bpb.ChainOf after first cells
  freed : ∀ cluster ∈ old, cluster ∉ cells → bpb.fatGet after cluster = 0
  taken : ∀ cluster ∈ cells, cluster ∉ old → bpb.fatGet disk cluster = 0
  spares : bpb.Spares (old ++ cells) disk after

structure Stored (bpb : Bpb) (disk : Disk) (old : List Nat) (data : List UInt8) (first : Nat)
    (after : Disk) (cells : List Nat) : Prop extends bpb.Placed disk old first after cells where
  contents : cells.flatMap (bpb.content after) =
    data ++ List.replicate (cells.length * bpb.clusterLength - data.length) 0

theorem ChainOf.writeChain (chain : bpb.ChainOf disk start old) (fits : bpb.Representable)
    (good : bpb.Good disk) (some : data ≠ []) :
    ∃ result after, bpb.writeChain disk start data = Option.some (result, after) ∧
      ((result = none ∧ ∃ longer, bpb.Grown disk start old after longer ∧
          longer.length < bpb.clusterCount data ∧
          ∀ cluster, bpb.IsCluster cluster → bpb.fatGet after cluster ≠ 0) ∨
        ∃ first cells, result = Option.some first ∧ cells.length = bpb.clusterCount data ∧
          (old ≠ [] → first = start) ∧ bpb.Stored disk old data first after cells) := by
  have needs : bpb.needed data = bpb.clusterCount data := by
    rw [needed, clusterCount, clusterSize_eq]
  rcases clusterCount_bounds good.sized some with ⟨positive, enough⟩
  have positiveSize : bpb.clusterSize ≠ 0 := by
    rw [clusterSize_eq]
    exact Nat.ne_of_gt (Nat.mul_pos good.sized.someSectors good.sized.someBytes)
  rw [Bpb.writeChain, if_neg positiveSize, chain.chainFrom fits, map_some, needs]
  rcases (chain.grown good).extend fits (bpb.clusterCount data - old.length) with
    ⟨result, middle, longer, done, grown, _, ⟨rfl, short, full⟩ | ⟨rfl, length⟩⟩
  · have atLeast : old.length ≤ longer.length := by
      rcases grown.longer with ⟨new, rfl, _⟩
      rw [length_append]
      exact Nat.le_add_right _ _
    rw [done]
    exact ⟨none, middle, rfl, .inl ⟨rfl, longer, grown, by omega, full⟩⟩
  rw [done]
  refine ⟨_, _, rfl, .inr ⟨_, longer.take (bpb.clusterCount data), rfl, ?_, ?_, ?_⟩⟩
  · rw [length_take]
    omega
  · intro someOld
    rcases grown.longer with ⟨new, rfl, _⟩
    rcases exists_cons_of_ne_nil someOld with ⟨head, tail, rfl⟩
    exact chain.linked.1.symm
  have reaches : bpb.clusterCount data ≤ longer.length := by
    omega
  rcases grown.good.cut fits grown.used grown.linked positive reaches with
    ⟨cutGood, cutLinked, cutUsed, cutFree, cutSpares⟩
  have takenLength : (longer.take (bpb.clusterCount data)).length = bpb.clusterCount data := by
    rw [length_take]
    exact min_eq_left reaches
  rcases cutGood.writeData fits (longer.take (bpb.clusterCount data))
      (fun cluster member => (cutUsed cluster member).1) cutLinked.nodup
      (by rw [takenLength]; exact enough) with ⟨goodAfter, entries, contents, filled⟩
  generalize bpb.writeData (longer.take (bpb.clusterCount data)) data
    (bpb.cut longer (bpb.clusterCount data) middle) = final at *
  -- The chain is not empty, so it starts with its first cluster.
  have starts : longer.head?.getD start = longer.head?.getD 0 := by
    cases longer with
    | nil =>
      simp only [length_nil] at reaches
      omega
    | cons head tail => rfl
  rw [starts] at cutLinked
  rcases grown.longer with ⟨new, isLonger, allFree⟩
  have cutChain : bpb.ChainOf _ _ _ := ⟨cutLinked, cutUsed⟩
  refine ⟨⟨goodAfter, ?_, ?_, ?_, ?_⟩, filled⟩
  · exact cutChain.congr fun cluster member => entries cluster (cutUsed cluster member).1
  · intro cluster inOld outside
    have inLonger : cluster ∈ longer := by
      rw [isLonger]
      exact mem_append_left _ inOld
    rw [← take_append_drop (bpb.clusterCount data) longer, mem_append] at inLonger
    have dropped := inLonger.resolve_left outside
    rw [entries cluster (chain.used cluster inOld).1, cutFree cluster dropped]
  · intro cluster member notOld
    have inLonger := mem_of_mem_take member
    rw [isLonger, mem_append] at inLonger
    exact allFree cluster (inLonger.resolve_left notOld)
  · have edits : bpb.Spares longer disk final := by
      refine (grown.spares.trans cutSpares).trans ?_
      intro cluster isCluster outside
      exact ⟨entries cluster isCluster,
        contents cluster isCluster fun member => outside (mem_of_mem_take member)⟩
    apply edits.mono
    -- If clusters were added then none was cut off.
    intro cluster inLonger
    rw [mem_append]
    by_cases added : bpb.clusterCount data ≤ old.length
    · have none : new = [] := by
        have count := congrArg List.length isLonger
        rw [length_append] at count
        exact length_eq_zero_iff.mp (by omega)
      rw [isLonger, none, append_nil] at inLonger
      exact .inl inLonger
    · right
      rwa [take_of_length_le (by omega)]

theorem Stored.reads {cells : List Nat} (stored : bpb.Stored disk old data first after cells)
    (fits : bpb.Representable) : bpb.readChain after first =
      some (data ++ List.replicate (cells.length * bpb.clusterLength - data.length) 0) := by
  rw [stored.chain.readChain fits stored.good.sized, stored.contents]

theorem Placed.outside {cells other : List Nat} {otherStart : Nat}
    (placed : bpb.Placed disk old first after cells) (chain : bpb.ChainOf disk otherStart other)
    (apart : ∀ cluster ∈ other, cluster ∉ old) : ∀ cluster ∈ other, cluster ∉ old ++ cells := by
  intro cluster member edited
  have notOld := apart cluster member
  rcases mem_append.mp edited with inOld | isNew
  · exact notOld inOld
  · exact (chain.used cluster member).2 (placed.taken cluster isNew notOld)

/-- The largest heap that `memory/heap.rs` gives the kernel. The image is a vector in it. -/
def heapLimit : Nat := 64 * 1024 * 1024

theorem Sized.representable (sized : bpb.Sized disk) (held : disk.size ≤ heapLimit) :
    bpb.Representable := by
  have limit : heapLimit = 67108864 := rfl
  have tables := sized.tables
  refine ⟨by omega, fun cluster isCluster => ?_, ?_⟩
  · have inside := sized.clusters cluster isCluster
    omega
  · have eoc : fatEoc = 268435448 := rfl
    have one : bpb.fatSize * bpb.bytesPerSector ≤ bpb.clusterPlace 2 := by
      rw [clusterPlace_two]
      apply Nat.mul_le_mul_right
      exact le_add_of_le_right (Nat.le_mul_of_pos_left _ sized.someFats)
    rw [entryCount]
    omega

/-- The chain has the length and the contents of the data, the rest of the old chain is free,
and every other chain is as it was. -/
theorem writeChain_written (good : bpb.Good disk) (held : disk.size ≤ heapLimit)
    (chain : bpb.ChainOf disk start old) (some : data ≠ []) :
    ∃ result after, bpb.writeChain disk start data = Option.some (result, after) ∧
      ∀ first, result = Option.some first → bpb.Written disk old data first after := by
  have fits := good.sized.representable held
  rcases chain.writeChain fits good some with
    ⟨result, after, run, ⟨rfl, _⟩ | ⟨first, cells, rfl, length, _, stored⟩⟩
  · exact ⟨none, after, run, by simp⟩
  refine ⟨_, after, run, ?_⟩
  intro other isFirst
  cases isFirst
  refine ⟨⟨cells, stored.chain, length, stored.freed⟩, ?_, stored.good.agree, ?_⟩
  · rw [stored.reads fits, length]
  · intro otherStart other otherChain apart
    have outside := stored.outside otherChain apart
    have otherAfter := otherChain.spared stored.spares outside
    refine ⟨otherAfter, ?_⟩
    rw [otherAfter.readChain fits stored.good.sized, otherChain.readChain fits good.sized]
    congr 1
    apply flatMap_congr
    intro cluster member
    exact (stored.spares cluster (otherChain.used cluster member).1 (outside cluster member)).2

/-! ## A small image -/

def smallBpb : Bpb where
  bytesPerSector := 512
  sectorsPerCluster := 1
  reservedSectors := 1
  numFats := 2
  fatSize := 1
  rootCluster := 2
  smallSectors := by decide
  smallClusters := by decide

def blankDisk : Disk := ⟨fun _ => 0, 66048⟩

theorem smallBpb_place {cluster : Nat} (isCluster : smallBpb.IsCluster cluster) :
    smallBpb.clusterPlace cluster + smallBpb.clusterLength ≤ 66048 := by
  have high : cluster < 128 := isCluster.2
  change (1 + 2 * 1 + (cluster - 2) * 1) * 512 + 1 * 512 ≤ 66048
  omega

theorem smallBpb_representable : smallBpb.Representable where
  tables := by decide
  offsets := fun _ isCluster => le_trans (smallBpb_place isCluster) (by decide)
  numbers := by decide

theorem smallBpb_sized (bytes : Nat → UInt8) : smallBpb.Sized ⟨bytes, 66048⟩ where
  someBytes := by decide
  someSectors := by decide
  someFats := by decide
  tables := show smallBpb.clusterPlace 2 ≤ 66048 by decide
  clusters := fun _ => smallBpb_place

theorem blankDisk_good : smallBpb.Good blankDisk where
  sized := smallBpb_sized _
  agree := by
    intro fat _ cluster _
    apply load_congr
    intro _ _
    rfl

/-- The clusters 2, 3 and 4 are a chain, and the cluster 5 is another one. -/
def chainedTable : List UInt8 := le32 3 ++ le32 4 ++ le32 fatEoc ++ le32 fatEoc

def chainedDisk : Disk :=
  ⟨store (store (store (fun _ => 0) 520 chainedTable) 1032 chainedTable) 3072 [9, 9], 66048⟩

theorem chainedDisk_good : smallBpb.Good chainedDisk where
  sized := smallBpb_sized _
  agree := by
    unfold CopiesAgree
    decide +kernel

theorem chainedDisk_links : smallBpb.fatGet chainedDisk 2 = 3 ∧
    smallBpb.fatGet chainedDisk 3 = 4 ∧ smallBpb.fatGet chainedDisk 4 = fatEoc ∧
    smallBpb.fatGet chainedDisk 5 = fatEoc := by
  decide +kernel

theorem chainedDisk_chain : smallBpb.ChainOf chainedDisk 2 [2, 3, 4] := by
  rcases chainedDisk_links with ⟨second, third, last, _⟩
  refine ⟨⟨rfl, by decide, second, by decide, third, by decide, ?_⟩, ?_⟩
  · rw [last]
    exact ends_eoc
  · simp only [mem_cons, not_mem_nil, or_false, forall_eq_or_imp, forall_eq, Used, IsCluster,
      second, third, last]
    decide

theorem chainedDisk_other : smallBpb.ChainOf chainedDisk 5 [5] := by
  have last := chainedDisk_links.2.2.2
  refine ⟨⟨rfl, by decide, ?_⟩, ?_⟩
  · rw [last]
    exact ends_eoc
  · simp only [mem_singleton, forall_eq, Used, IsCluster, last]
    decide

/-- The data takes two clusters of the three; the other chain is still there. -/
theorem writeChain_written_shorter : ∃ after,
    smallBpb.writeChain chainedDisk 2 (List.replicate 513 7) = some (some 2, after) ∧
      smallBpb.Written chainedDisk [2, 3, 4] (List.replicate 513 7) 2 after ∧
      smallBpb.readChain after 5 = smallBpb.readChain chainedDisk 5 := by
  have notEmpty : List.replicate 513 (7 : UInt8) ≠ [] := by
    rw [ne_eq, replicate_eq_nil_iff]
    decide
  rcases writeChain_written chainedDisk_good (by decide) chainedDisk_chain notEmpty with
    ⟨result, after, run, written⟩
  have isTwo : (smallBpb.writeChain chainedDisk 2 (List.replicate 513 7)).map Prod.fst =
      some (some 2) := by
    decide +kernel
  rw [run, map_some, Option.some.injEq] at isTwo
  cases isTwo
  have written := written 2 rfl
  exact ⟨after, run, written, (written.others 5 [5] chainedDisk_other (by decide)).2⟩

end Bpb

end Qunix.Fs.Fat32
