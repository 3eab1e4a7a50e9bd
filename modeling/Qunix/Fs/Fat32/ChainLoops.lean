import Qunix.Fs.Fat32.ChainWrite

/-! # Walks through any table

Which of the walks of `read_chain`, `chain_len` and `write_chain` end. Nothing in them notices a
circle or a number behind the table.
-/

namespace Qunix.Fs.Fat32

open Foundation Bytes FlatArray LinkedChains List Option

namespace Bpb

variable {bpb : Bpb} {disk : Disk} {start : Nat}

section

variable (bpb disk start)

def chainLen : Option Nat := (bpb.chainFrom disk start).map List.length

/-- The walks end after at most as many steps as the table has entries. -/
def WalksEnd : Prop :=
  ∃ steps ≤ bpb.total, bpb.chainLen disk start = some steps ∧ bpb.readChain disk start ≠ none ∧
    ∀ data, bpb.writeChain disk start data ≠ none

/-- A walk that follows the links comes to the cluster after a number of them. -/
def WalkComes (steps cluster : Nat) : Prop := Comes Ends (bpb.fatGet disk) start steps cluster

/-- The walk comes nowhere twice, and to no more numbers behind the table than there are entries
that it does not come to. -/
structure Straight : Prop where
  once : ∀ first second cluster, bpb.WalkComes disk start first cluster →
    bpb.WalkComes disk start second cluster → first = second
  few : (visited Ends (bpb.fatGet disk) start \ Set.Iio bpb.total).encard ≤
    (Set.Iio bpb.total \ visited Ends (bpb.fatGet disk) start).encard

theorem walksEnd_iff_chain : bpb.WalksEnd disk start ↔ bpb.clusterSize ≠ 0 ∧
    ∃ cells, cells.length ≤ bpb.total ∧ Chain Ends (bpb.fatGet disk) start cells := by
  constructor
  · rintro ⟨steps, few, counted, _, writes⟩
    rcases map_eq_some_iff.mp counted with ⟨cells, walked, rfl⟩
    exact ⟨fun none => writes [] (if_pos none), cells, few, chain_of_walk walked⟩
  · rintro ⟨positive, cells, few, chain⟩
    have small : cells.length ≤ fatEoc := chain.length_le fun cell member => by
      rcases append_of_mem member with ⟨front, rest, rfl⟩
      have continues := chain.suffix.2.1
      rw [Ends, not_not] at continues
      exact continues.1
    have walked : bpb.chainFrom disk start = some cells := chain.walk small
    exact ⟨_, few, by rw [chainLen, walked]; rfl, by simp [readChain, walked],
      by simp [writeChain, walked, positive]⟩

end

/-- The entry of cluster 2 is its own number. -/
def loopedDisk : Disk := ⟨store (fun _ => 0) 520 [2], 66048⟩

end Bpb

end Qunix.Fs.Fat32
