import Qunix.Fs.Fat32.Clusters

/-! # Growing, cutting and filling a chain

What the steps of `write_chain` do to the entries and the contents of the clusters, each with
the clusters that it leaves alone.
-/

namespace Qunix.Fs.Fat32

open Foundation Bytes FlatArray LinkedChains List

namespace Bpb

variable {bpb : Bpb} {disk before middle after : Disk} {cluster other start : Nat}
variable {cells chain old : List Nat} {data : List UInt8}

def Used (bpb : Bpb) (disk : Disk) (cluster : Nat) : Prop :=
  bpb.IsCluster cluster ∧ bpb.fatGet disk cluster ≠ 0

/-- Other clusters keep their entries and their contents. -/
def Spares (bpb : Bpb) (cells : List Nat) (before after : Disk) : Prop :=
  ∀ cluster, bpb.IsCluster cluster → cluster ∉ cells →
    bpb.fatGet after cluster = bpb.fatGet before cluster ∧
      bpb.content after cluster = bpb.content before cluster

theorem Spares.refl : bpb.Spares cells disk disk := fun _ _ _ => ⟨rfl, rfl⟩

theorem Spares.trans (first : bpb.Spares cells before middle)
    (second : bpb.Spares cells middle after) : bpb.Spares cells before after := by
  intro cluster isCluster outside
  have kept := first cluster isCluster outside
  have keptAgain := second cluster isCluster outside
  exact ⟨keptAgain.1.trans kept.1, keptAgain.2.trans kept.2⟩

theorem Spares.mono {wider : List Nat} (spares : bpb.Spares cells before after)
    (subset : cells ⊆ wider) : bpb.Spares wider before after :=
  fun cluster isCluster outside => spares cluster isCluster fun member => outside (subset member)

theorem ends_eoc : Ends fatEoc := fun both => lt_irrefl _ both.1

theorem Representable.not_ends (fits : bpb.Representable) (isCluster : bpb.IsCluster cluster) :
    ¬Ends cluster := by
  intro ends
  exact ends ⟨lt_of_lt_of_le isCluster.2 fits.numbers, isCluster.1⟩

/-! ## Allocation -/

theorem mem_clusters {cluster : Nat} :
    cluster ∈ (List.range bpb.entryCount).drop 2 ↔ bpb.IsCluster cluster := by
  rw [range_eq_range', drop_range', mem_range'_1, IsCluster]
  omega

theorem Good.allocCluster (good : bpb.Good disk) (fits : bpb.Representable) :
    (bpb.allocCluster disk = (none, disk) ∧
        ∀ cluster, bpb.IsCluster cluster → bpb.fatGet disk cluster ≠ 0) ∨
      ∃ cluster after, bpb.allocCluster disk = (some cluster, after) ∧ bpb.IsCluster cluster ∧
        bpb.fatGet disk cluster = 0 ∧ bpb.Good after ∧
        bpb.fatGet after cluster = fatEoc ∧ bpb.content after cluster = bpb.padded [] ∧
        bpb.Spares [cluster] disk after := by
  rw [Bpb.allocCluster, fits.total_eq]
  cases found : ((List.range bpb.entryCount).drop 2).find?
      fun cluster => bpb.fatGet disk cluster = 0 with
  | none =>
    refine .inl ⟨rfl, ?_⟩
    intro cluster isCluster isFree
    have notFree := find?_eq_none.mp found cluster (mem_clusters.mpr isCluster)
    simp [isFree] at notFree
  | some cluster =>
    have isFree : bpb.fatGet disk cluster = 0 := by
      simpa using find?_some found
    have isCluster := mem_clusters.mp (mem_of_find?_eq_some found)
    have inTable := isCluster.2
    have setGood : bpb.Good (bpb.fatSet disk cluster fatEoc) := good.fatSet fits inTable
    have setEntry := fun {other} otherInTable => @Sized.fatGet_fatSet bpb disk cluster other fatEoc
      good.sized fits inTable otherInTable (by decide)
    refine .inr ⟨cluster, _, rfl, isCluster, isFree, setGood.putCluster fits isCluster, ?_, ?_, ?_⟩
    · rw [setGood.sized.fatGet_putCluster fits isCluster inTable, setEntry inTable, if_pos rfl]
    · rw [setGood.sized.content_putCluster fits isCluster (Nat.zero_le _) isCluster, if_pos rfl]
    · intro other otherIsCluster outside
      have different : other ≠ cluster := by simpa using outside
      rw [setGood.sized.fatGet_putCluster fits isCluster otherIsCluster.2,
        setEntry otherIsCluster.2, if_neg different,
        setGood.sized.content_putCluster fits isCluster (Nat.zero_le _) otherIsCluster,
        if_neg different, good.sized.content_fatSet fits inTable]
      exact ⟨rfl, rfl⟩

/-! ## Growing -/

/-- A chain that has grown by clusters that were free. -/
structure Grown (bpb : Bpb) (before : Disk) (start : Nat) (old : List Nat) (after : Disk)
    (chain : List Nat) : Prop where
  good : bpb.Good after
  used : ∀ cluster ∈ chain, bpb.Used after cluster
  linked : Chain Ends (bpb.fatGet after) (chain.head?.getD start) chain
  longer : ∃ new, chain = old ++ new ∧ ∀ cluster ∈ new, bpb.fatGet before cluster = 0
  spares : bpb.Spares chain before after

theorem Grown.join (grown : bpb.Grown before start old disk chain) (fits : bpb.Representable)
    {newC : Nat} (isCluster : bpb.IsCluster newC) (isFree : bpb.fatGet disk newC = 0)
    (good : bpb.Good middle) (isEnd : bpb.fatGet middle newC = fatEoc)
    (spares : bpb.Spares [newC] disk middle) :
    bpb.Grown before start old
      (match chain.getLast? with
        | some last => bpb.fatSet middle last newC
        | none => middle) (chain ++ [newC]) := by
  -- The new cluster was free, so it is not in the chain.
  have outside : newC ∉ chain := fun member => (grown.used newC member).2 isFree
  have freeBefore : bpb.fatGet before newC = 0 :=
    (grown.spares newC isCluster outside).1.symm.trans isFree
  have longer : ∃ new, chain ++ [newC] = old ++ new ∧
      ∀ cluster ∈ new, bpb.fatGet before cluster = 0 := by
    rcases grown.longer with ⟨new, rfl, allFree⟩
    exact ⟨new ++ [newC], append_assoc ..,
      forall_mem_append.mpr ⟨allFree, forall_mem_singleton.mpr freeBefore⟩⟩
  have kept : ∀ cluster ∈ chain, bpb.fatGet middle cluster = bpb.fatGet disk cluster := by
    intro cluster member
    refine (spares cluster (grown.used cluster member).1 ?_).1
    rintro isNew
    rw [mem_singleton.mp isNew] at member
    exact outside member
  have sparesAll : bpb.Spares (chain ++ [newC]) before middle :=
    (grown.spares.mono (subset_append_left ..)).trans
      (spares.mono (subset_append_right ..))
  cases isLast : chain.getLast? with
  | none =>
    have none : chain = [] := getLast?_eq_none_iff.mp isLast
    subst none
    refine ⟨good, ?_, ⟨rfl, fits.not_ends isCluster, ?_⟩, longer, sparesAll⟩
    · intro cluster member
      rw [nil_append, mem_singleton] at member
      rw [member]
      exact ⟨isCluster, by rw [isEnd]; decide⟩
    · rw [isEnd]
      exact ends_eoc
  | some last =>
    rcases List.getLast?_eq_some_iff.mp isLast with ⟨front, rfl⟩
    have lastUsed := grown.used last (by simp)
    have different : newC ≠ last := by
      rintro rfl
      exact outside (by simp)
    have small : newC < 268435456 := by
      have eoc : fatEoc = 268435448 := rfl
      have bound := fits.numbers
      have inTable := isCluster.2
      omega
    have entry := fun {other} otherInTable => @Sized.fatGet_fatSet bpb middle last other newC
      good.sized fits lastUsed.1.2 otherInTable small
    refine ⟨good.fatSet fits lastUsed.1.2, ?_, ?_, longer, ?_⟩
    · refine forall_mem_append.mpr ⟨fun cluster earlier => ?_, forall_mem_singleton.mpr ?_⟩
      · refine ⟨(grown.used cluster earlier).1, ?_⟩
        rw [entry (grown.used cluster earlier).1.2]
        split
        · have low := isCluster.1
          omega
        · rw [kept cluster earlier]
          exact (grown.used cluster earlier).2
      · refine ⟨isCluster, ?_⟩
        rw [entry isCluster.2, if_neg different, isEnd]
        decide
    · have nodup := grown.linked.nodup
      have head : ((front ++ [last]) ++ [newC]).head?.getD start =
          (front ++ [last]).head?.getD start := by
        cases front with
        | nil => rfl
        | cons head tail => rfl
      rw [head, append_assoc]
      refine grown.linked.splice ?_ ?_
      · intro cell member
        have inChain : cell ∈ front ++ [last] := mem_append_left _ member
        have notLast : cell ≠ last := by
          rintro rfl
          exact disjoint_of_nodup_append nodup member mem_cons_self
        rw [entry (grown.used cell inChain).1.2, if_neg notLast, kept cell inChain]
      · dsimp only
        rw [entry lastUsed.1.2, if_pos rfl]
        refine ⟨rfl, fits.not_ends isCluster, ?_⟩
        rw [entry isCluster.2, if_neg different, isEnd]
        exact ends_eoc
    · refine sparesAll.trans ?_
      intro other otherIsCluster notInChain
      have notLast : other ≠ last := by
        rintro rfl
        exact notInChain (by simp)
      rw [entry otherIsCluster.2, if_neg notLast, good.sized.content_fatSet fits lastUsed.1.2]
      exact ⟨rfl, rfl⟩

/-- A disk that is full before the end leaves a chain that has grown by less. -/
theorem Grown.extend (grown : bpb.Grown before start old disk chain) (fits : bpb.Representable)
    (count : Nat) :
    ∃ result after longer, bpb.extend count chain disk = (result, after) ∧
      bpb.Grown before start old after longer ∧ chain <+: longer ∧
      (result = none ∧ longer.length < chain.length + count ∧
          (∀ cluster, bpb.IsCluster cluster → bpb.fatGet after cluster ≠ 0) ∨
        result = some longer ∧ longer.length = chain.length + count) := by
  induction count generalizing chain disk with
  | zero => exact ⟨_, disk, chain, rfl, grown, prefix_rfl, .inr ⟨rfl, rfl⟩⟩
  | succ count induction =>
    rcases grown.good.allocCluster fits with ⟨full, noneFree⟩ |
      ⟨newC, middle, allocated, isCluster, isFree, good, isEnd, _, spares⟩
    · refine ⟨none, disk, chain, ?_, grown, prefix_rfl, .inl ⟨rfl, by omega, noneFree⟩⟩
      rw [Bpb.extend, full]
    have joined := grown.join fits isCluster isFree good isEnd spares
    have run : bpb.extend (count + 1) chain disk = bpb.extend count (chain ++ [newC])
        (match chain.getLast? with
          | some last => bpb.fatSet middle last newC
          | none => middle) := by
      rw [Bpb.extend, allocated]
      cases chain.getLast? with
      | none => rfl
      | some last => rfl
    rw [run]
    rcases induction joined with ⟨result, after, longer, done, grownAfter, inFront, outcome⟩
    refine ⟨result, after, longer, done, grownAfter,
      (prefix_append chain [newC]).trans inFront, ?_⟩
    have length : (chain ++ [newC]).length = chain.length + 1 := by simp
    rcases outcome with ⟨failed, short, noneFree⟩ | ⟨success, whole⟩
    · exact .inl ⟨failed, by omega, noneFree⟩
    · exact .inr ⟨success, by omega⟩

/-! ## Cutting -/

theorem Good.freeAll (good : bpb.Good disk) (fits : bpb.Representable) (cells : List Nat)
    (inTable : ∀ cell ∈ cells, bpb.IsCluster cell) :
    let after := cells.foldl (fun disk excess => bpb.fatSet disk excess 0) disk
    bpb.Good after ∧ (∀ cluster, bpb.IsCluster cluster →
      bpb.fatGet after cluster = if cluster ∈ cells then 0 else bpb.fatGet disk cluster) ∧
      ∀ cluster, bpb.content after cluster = bpb.content disk cluster := by
  induction cells generalizing disk with
  | nil => exact ⟨good, by simp, fun _ => rfl⟩
  | cons cell rest induction =>
    have cellInTable := (inTable cell mem_cons_self).2
    rcases induction (good.fatSet fits cellInTable)
        fun other member => inTable other (mem_cons_of_mem _ member) with
      ⟨goodAfter, entries, contents⟩
    refine ⟨goodAfter, ?_, ?_⟩
    · intro cluster isCluster
      rw [foldl_cons, entries cluster isCluster,
        good.sized.fatGet_fatSet fits cellInTable isCluster.2 (by decide)]
      by_cases later : cluster ∈ rest
      · rw [if_pos later, if_pos (mem_cons_of_mem _ later)]
      rw [if_neg later]
      by_cases here : cluster = cell
      · rw [if_pos here, if_pos (here ▸ mem_cons_self)]
      · rw [if_neg here, if_neg (by simp [here, later])]
    · intro cluster
      rw [foldl_cons, contents cluster, good.sized.content_fatSet fits cellInTable]

theorem Good.cut (good : bpb.Good disk) (fits : bpb.Representable)
    (used : ∀ cluster ∈ chain, bpb.Used disk cluster)
    (linked : Chain Ends (bpb.fatGet disk) start chain) {needed : Nat} (some : 0 < needed)
    (enough : needed ≤ chain.length) :
    let after := bpb.cut chain needed disk
    bpb.Good after ∧ Chain Ends (bpb.fatGet after) start (chain.take needed) ∧
      (∀ cluster ∈ chain.take needed, bpb.Used after cluster) ∧
      (∀ cluster ∈ chain.drop needed, bpb.fatGet after cluster = 0) ∧
      bpb.Spares chain disk after := by
  by_cases surplus : needed < chain.length
  · have split : ∃ front last excess, chain = front ++ last :: excess ∧
        needed = front.length + 1 := by
      have inside : needed - 1 < chain.length := by
        omega
      refine ⟨chain.take (needed - 1), chain[needed - 1], chain.drop (needed - 1 + 1), ?_, ?_⟩
      · rw [← drop_eq_getElem_cons inside, take_append_drop]
      · rw [length_take]
        omega
    rcases split with ⟨front, last, excess, rfl, rfl⟩
    have isLast : (front ++ last :: excess).getD (front.length + 1 - 1) 0 = last := by
      simp [getD_eq_getElem?_getD]
    have taken : (front ++ last :: excess).take (front.length + 1) = front ++ [last] := by
      simp [take_append, take_of_length_le (Nat.le_succ front.length)]
    have dropped : (front ++ last :: excess).drop (front.length + 1) = excess := by
      simp [drop_append]
    rw [Bpb.cut, if_pos ⟨surplus, some⟩, isLast, taken, dropped]
    have lastUsed := used last (by simp)
    have nodup := linked.nodup
    have frontApart : ∀ cell ∈ front, cell ≠ last ∧ cell ∉ excess := by
      intro cell member
      have apart := disjoint_of_nodup_append nodup member
      simpa using apart
    have lastApart : last ∉ excess := (nodup_cons.mp (nodup_append.mp nodup).2.1).1
    have setGood : bpb.Good (bpb.fatSet disk last fatEoc) := good.fatSet fits lastUsed.1.2
    have excessUsed : ∀ cell ∈ excess, bpb.IsCluster cell := fun cell member =>
      (used cell (by simp [member])).1
    rcases setGood.freeAll fits excess excessUsed with ⟨goodAfter, entries, contents⟩
    have entry : ∀ cell, bpb.IsCluster cell → bpb.fatGet
        (excess.foldl (fun disk excess => bpb.fatSet disk excess 0) (bpb.fatSet disk last fatEoc))
          cell = if cell ∈ excess then 0
            else if cell = last then fatEoc else bpb.fatGet disk cell := by
      intro cell isCluster
      rw [entries cell isCluster,
        good.sized.fatGet_fatSet fits lastUsed.1.2 isCluster.2 (by decide)]
    refine ⟨goodAfter, ?_, ?_, ?_, ?_⟩
    · refine linked.splice ?_ ?_
      · intro cell member
        rw [entry cell (used cell (by simp [member])).1, if_neg (frontApart cell member).2,
          if_neg (frontApart cell member).1]
      · rw [entry last lastUsed.1, if_neg lastApart, if_pos rfl]
        exact ends_eoc
    · refine forall_mem_append.mpr ⟨fun cell inFront => ?_, forall_mem_singleton.mpr ?_⟩
      · have cellUsed := used cell (by simp [inFront])
        refine ⟨cellUsed.1, ?_⟩
        rw [entry cell cellUsed.1, if_neg (frontApart cell inFront).2,
          if_neg (frontApart cell inFront).1]
        exact cellUsed.2
      · refine ⟨lastUsed.1, ?_⟩
        rw [entry last lastUsed.1, if_neg lastApart, if_pos rfl]
        decide
    · intro cell member
      rw [entry cell (excessUsed cell member), if_pos member]
    · intro cell isCluster outside
      have apart : cell ∉ excess ∧ cell ≠ last := by
        simp only [mem_append, mem_cons, not_or] at outside
        exact ⟨outside.2.2, outside.2.1⟩
      rw [entry cell isCluster, if_neg apart.1, if_neg apart.2, contents cell,
        good.sized.content_fatSet fits lastUsed.1.2]
      exact ⟨rfl, rfl⟩
  · have all : chain.length ≤ needed := by
      omega
    rw [Bpb.cut, if_neg fun both => surplus both.1, take_of_length_le all, drop_eq_nil_of_le all]
    exact ⟨good, linked, used, by simp, Spares.refl⟩

/-! ## Filling -/

theorem padded_append (count : Nat) (fewer : data.length ≤ (count + 1) * bpb.clusterLength) :
    bpb.padded (data.take bpb.clusterLength) ++ (data.drop bpb.clusterLength ++
      List.replicate (count * bpb.clusterLength - (data.drop bpb.clusterLength).length) 0) =
    data ++ List.replicate ((count + 1) * bpb.clusterLength - data.length) 0 := by
  rw [Nat.succ_mul] at fewer ⊢
  rw [padded, length_take, length_drop]
  by_cases short : data.length ≤ bpb.clusterLength
  · rw [take_of_length_le short, drop_eq_nil_of_le short, nil_append, append_assoc, ← replicate_add]
    congr 2
    omega
  · rw [min_eq_left (by omega), Nat.sub_self, replicate_zero, append_nil,
      ← append_assoc, take_append_drop]
    congr 2
    omega

theorem Good.writeData (good : bpb.Good disk) (fits : bpb.Representable) (cells : List Nat)
    (isCluster : ∀ cell ∈ cells, bpb.IsCluster cell) (nodup : cells.Nodup)
    (fewer : data.length ≤ cells.length * bpb.clusterLength) :
    let after := bpb.writeData cells data disk
    bpb.Good after ∧
      (∀ cluster, bpb.IsCluster cluster → bpb.fatGet after cluster = bpb.fatGet disk cluster) ∧
      (∀ cluster, bpb.IsCluster cluster → cluster ∉ cells →
        bpb.content after cluster = bpb.content disk cluster) ∧
      cells.flatMap (bpb.content after) =
        data ++ List.replicate (cells.length * bpb.clusterLength - data.length) 0 := by
  induction cells generalizing disk data with
  | nil =>
    have none : data = [] := by
      rw [length_nil, zero_mul] at fewer
      exact length_eq_zero_iff.mp (Nat.le_zero.mp fewer)
    rw [none]
    refine ⟨good, fun _ _ => rfl, fun _ _ _ => rfl, ?_⟩
    simp
  | cons cell rest induction =>
    have here := isCluster cell mem_cons_self
    have short : (data.take bpb.clusterLength).length ≤ bpb.clusterLength := by
      rw [length_take]
      exact min_le_left _ _
    have fewerLater : (data.drop bpb.clusterLength).length ≤ rest.length * bpb.clusterLength := by
      rw [length_cons, Nat.succ_mul] at fewer
      rw [length_drop]
      omega
    have putGood : bpb.Good (bpb.putCluster disk cell (data.take bpb.clusterLength)) :=
      good.putCluster fits here
    rcases nodup_cons.mp nodup with ⟨notLater, nodupLater⟩
    rcases induction putGood (fun other member => isCluster other (mem_cons_of_mem _ member))
      nodupLater fewerLater with ⟨goodAfter, entries, contents, filled⟩
    intro after
    have isAfter : after = bpb.writeData rest (data.drop bpb.clusterLength)
        (bpb.putCluster disk cell (data.take bpb.clusterLength)) := by
      change bpb.writeData (cell :: rest) data disk = _
      rw [Bpb.writeData, Bpb.writeData, inParts, clusterSize_eq]
    rw [isAfter]
    refine ⟨goodAfter, ?_, ?_, ?_⟩
    · intro cluster otherIsCluster
      rw [entries cluster otherIsCluster, good.sized.fatGet_putCluster fits here otherIsCluster.2]
    · intro cluster otherIsCluster outside
      rw [mem_cons, not_or] at outside
      rw [contents cluster otherIsCluster outside.2,
        good.sized.content_putCluster fits here short otherIsCluster, if_neg outside.1]
    · rw [flatMap_cons, filled, contents cell here notLater,
        good.sized.content_putCluster fits here short here, if_pos rfl]
      exact padded_append rest.length fewer

end Bpb

end Qunix.Fs.Fat32
