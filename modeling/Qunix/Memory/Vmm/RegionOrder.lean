import Qunix.Memory.Vmm.SpaceInvariant

/-! # Region lists without overlaps

The regions of an address space are meant to be aligned, non-empty and pairwise
disjoint. Cutting always keeps this. `mmap` and `brk` keep it when the range they
add is clear, which the bump pointer and the heap do not check.
-/

namespace Qunix.Memory.Vmm

open Foundation Arch MemoryState VmaRegion List

namespace VmaRegion

def Apart (left right : VmaRegion) : Prop := left.stop ≤ right.start ∨ right.stop ≤ left.start

variable {left right : VmaRegion}

section

variable (apart : left.Apart right)
include apart

theorem Apart.symm : right.Apart left :=
  Or.symm apart

instance : Std.Symm Apart := ⟨fun _ _ => Apart.symm⟩

theorem Apart.ne (nonempty : left.start < left.stop) : right ≠ left := by
  intro same
  subst same
  rcases apart with apart | apart <;> omega

theorem Apart.narrow {part : VmaRegion}
    (lower : left.start ≤ part.start) (upper : part.stop ≤ left.stop) : part.Apart right := by
  rcases apart with apart | apart
  · exact .inl (by omega)
  · exact .inr (by omega)

theorem covers_of_apart {number : Nat} (covers : left.Covers number) : ¬right.Covers number := by
  intro other
  rw [Covers] at covers other
  rcases apart with apart | apart <;> omega

end

end VmaRegion

theorem pairwise_updateFirst {Item : Type} {relation : Item → Item → Prop}
    {test : Item → Bool} {change : Item → Item} {items : List Item}
    (symmetric : ∀ {left right}, relation left right → relation right left)
    (related : items.Pairwise relation)
    (changed : ∀ old ∈ items, test old = true → ∀ other ∈ items, relation old other →
      relation (change old) other) :
    (updateFirst test change items).Pairwise relation := by
  induction items with
  | nil => exact related
  | cons item rest induction =>
    rcases List.pairwise_cons.mp related with ⟨headRelated, restRelated⟩
    rw [updateFirst]
    split
    next found =>
      refine List.pairwise_cons.mpr ⟨?_, restRelated⟩
      intro other member
      exact changed item mem_cons_self found other (mem_cons_of_mem item member)
        (headRelated other member)
    next =>
      refine List.pairwise_cons.mpr ⟨?_, induction restRelated ?_⟩
      · intro other member
        rcases mem_updateFirst member with member | ⟨old, oldMember, found, same⟩
        · exact headRelated other member
        · subst same
          exact symmetric (changed old (mem_cons_of_mem item oldMember) found item
            mem_cons_self (symmetric (headRelated old oldMember)))
      · intro old member found other otherMember
        exact changed old (mem_cons_of_mem item member) found other
          (mem_cons_of_mem item otherMember)

namespace AddressSpace

variable {first last : Nat} {region part : VmaRegion}

theorem cutRegion_apart (ordered : first ≤ last) (region : VmaRegion) :
    (cutRegion first last region).Pairwise Apart := by
  rw [cutRegion]
  split
  · exact pairwise_singleton _ _
  · split
    · split
      · refine List.pairwise_pair.mpr (.inl ?_)
        exact ordered
      · exact pairwise_singleton _ _
    · split
      · exact pairwise_singleton _ _
      · exact List.Pairwise.nil

theorem narrow_of_mem_cutRegion (member : part ∈ cutRegion first last region) :
    region.start ≤ part.start ∧ part.stop ≤ region.stop := by
  rw [cutRegion] at member
  grind

theorem start_of_mem_cutRegion (member : part ∈ cutRegion first last region) :
    part.start = region.start ∨ part.start = last := by
  rw [cutRegion] at member
  grind

/-- What a region list is meant to be. -/
structure Neat (regions : List VmaRegion) : Prop where
  aligned : ∀ region ∈ regions, region.start % 4096 = 0 ∧ region.stop % 4096 = 0
  nonempty : ∀ region ∈ regions, region.start < region.stop
  apart : regions.Pairwise Apart

namespace Neat

variable {regions : List VmaRegion}

theorem nil : Neat [] :=
  ⟨fun _ member => absurd member not_mem_nil, fun _ member => absurd member not_mem_nil,
    List.Pairwise.nil⟩

variable (neat : Neat regions)

include neat

theorem of_mem {left right : VmaRegion} (leftMember : left ∈ regions)
    (rightMember : right ∈ regions) (different : left ≠ right) : left.Apart right :=
  neat.apart.forall leftMember rightMember different

theorem unique {left right : VmaRegion} (leftMember : left ∈ regions)
    (rightMember : right ∈ regions) {number : Nat} (leftCovers : left.Covers number)
    (rightCovers : right.Covers number) : left = right := by
  by_contra different
  exact covers_of_apart (neat.of_mem leftMember rightMember different) leftCovers rightCovers

theorem cut {first last : Nat} (firstAligned : first % 4096 = 0)
    (lastAligned : last % 4096 = 0) (ordered : first ≤ last) :
    Neat (regions.flatMap (cutRegion first last)) where
  aligned := by
    intro part member
    rcases mem_flatMap.mp member with ⟨region, isRegion, isPart⟩
    have aligned := neat.aligned region isRegion
    rw [cutRegion] at isPart
    grind
  nonempty := by
    intro part member
    rcases mem_flatMap.mp member with ⟨region, isRegion, isPart⟩
    exact nonempty_of_mem_cutRegion isPart (neat.nonempty region isRegion)
  apart := by
    refine List.pairwise_flatMap.mpr ⟨fun region _ => cutRegion_apart ordered region, ?_⟩
    refine neat.apart.imp ?_
    intro left right apart leftPart leftMember rightPart rightMember
    have leftNarrow := narrow_of_mem_cutRegion leftMember
    have rightNarrow := narrow_of_mem_cutRegion rightMember
    exact ((apart.narrow leftNarrow.1 leftNarrow.2).symm.narrow rightNarrow.1
      rightNarrow.2).symm

theorem push {region : VmaRegion}
    (aligned : region.start % 4096 = 0 ∧ region.stop % 4096 = 0)
    (nonempty : region.start < region.stop)
    (clear : ∀ other ∈ regions, other.meets region.start region.stop = false) :
    Neat (regions ++ [region]) where
  aligned := forall_mem_append.mpr ⟨neat.aligned, forall_mem_singleton.mpr aligned⟩
  nonempty := forall_mem_append.mpr ⟨neat.nonempty, forall_mem_singleton.mpr nonempty⟩
  apart := by
    refine pairwise_append.mpr ⟨neat.apart, pairwise_singleton _ _, ?_⟩
    intro other member last isLast
    rw [mem_singleton.mp isLast]
    exact (meets_eq_false.mp (clear other member)).symm

theorem resize {test : VmaRegion → Bool} {stop : Nat}
    (aligned : stop % 4096 = 0)
    (nonempty : ∀ region ∈ regions, test region = true → region.start < stop)
    (clear : ∀ region ∈ regions, test region = true → ∀ other ∈ regions, other ≠ region →
      other.meets region.start stop = false) :
    Neat (updateFirst test (fun region => { region with stop := stop }) regions) where
  aligned := by
    intro region member
    rcases mem_updateFirst member with member | ⟨old, oldMember, _, same⟩
    · exact neat.aligned region member
    · subst same
      exact ⟨(neat.aligned old oldMember).1, aligned⟩
  nonempty := by
    intro region member
    rcases mem_updateFirst member with member | ⟨old, oldMember, found, same⟩
    · exact neat.nonempty region member
    · subst same
      exact nonempty old oldMember found
  apart := by
    refine pairwise_updateFirst Apart.symm neat.apart ?_
    intro old member found other otherMember apart
    exact meets_eq_false.mp (clear old member found other otherMember
      (apart.ne (neat.nonempty old member)))

theorem map {change : VmaRegion → VmaRegion}
    (start : ∀ region, (change region).start = region.start)
    (stop : ∀ region, (change region).stop = region.stop) : Neat (regions.map change) where
  aligned := by
    intro changed member
    rcases mem_map.mp member with ⟨region, isRegion, same⟩
    rw [← same, start, stop]
    exact neat.aligned region isRegion
  nonempty := by
    intro changed member
    rcases mem_map.mp member with ⟨region, isRegion, same⟩
    rw [← same, start, stop]
    exact neat.nonempty region isRegion
  apart := by
    refine List.pairwise_map.mpr (neat.apart.imp ?_)
    intro left right apart
    rw [Apart, start, start, stop, stop]
    exact apart

end Neat

end AddressSpace

end Qunix.Memory.Vmm
