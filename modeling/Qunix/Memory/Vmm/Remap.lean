import Qunix.Memory.Vmm.Footprint

/-! # What `mremap` touches and keeps

The pages of a call whose ranges lie in the user half, and the order of the regions.
-/

namespace Qunix.Memory.Vmm.AddressSpace

open Foundation Arch MemoryState VmaRegion

variable {allocator : FrameAllocator} {memory next : MemoryState allocator}
variable {space nextSpace : AddressSpace} {oldAddr oldLen newLen flags newAddr : Nat}

/-! ## Footprint -/

variable {oldPages newPages : Nat} {answer : Option Nat} {source : Inherited}
  {cut : AddressSpace × MemoryState allocator}

section Footprint

variable {roots : Nat → Prop}

/-- The old range, the pages after it if no region is there, and the range that a moved
mapping goes to. -/
def RemapRange (space : AddressSpace) (oldAddr oldLen newLen flags newAddr number : Nat) : Prop :=
  Within (alignDown oldAddr) (pageCount oldLen) number ∨
    (pageCount oldLen < pageCount newLen ∧
      ((Within (alignDown oldAddr) (pageCount newLen) number ∧
          ∀ region ∈ space.regions,
            region.meets (alignDown oldAddr + pageCount oldLen * 4096)
              (alignDown oldAddr + pageCount newLen * 4096) = false) ∨
        (flags % 2 ≠ 0 ∧ Within (space.remapDest flags newAddr) (pageCount newLen) number)))

/-- A mapping that keeps its length is not the first part of a longer region. Such a
region loses its tail. -/
def RemapWhole (space : AddressSpace) (oldAddr oldLen newLen : Nat) : Prop :=
  newLen ≠ 0 → pageCount newLen = pageCount oldLen → ∀ region ∈ space.regions,
    region.start = alignDown oldAddr → region.stop ≤ alignDown oldAddr + pageCount newLen * 4096

variable {first : Nat}

theorem PartOf.stop_le {count : Nat} {region part : VmaRegion}
    (isPart : PartOf first count region part) (positive : 0 < count)
    (early : part.start < first + count * 4096) : part.stop ≤ first := by
  rw [PartOf, if_neg (ne_of_gt positive)] at isPart
  rcases meets_eq_false.mp (meets_of_mem_cutRegion isPart) with late | low
  · omega
  · exact low

theorem within_tail {before after number : Nat} (ordered : before ≤ after)
    (within : Within (first + before * 4096) (after - before) number) :
    Within first after number := by
  rcases within with ⟨lower, upper⟩
  constructor <;> omega

theorem extended_footprint {range : Nat → Prop} (sound : memory.Sound roots)
    (ordered : oldPages ≤ newPages) :
    Footprint memory space memory
      { space with regions := space.extendedRegions first oldPages newPages source } roots
      range := by
  cases found : space.regions.any (isExactly first oldPages) with
  | true =>
    have longer : ∀ region ∈ space.regions, isExactly first oldPages region = true →
        region.stop ≤ first + newPages * 4096 := by
      intro region _ exactly
      rw [isExactly, Bool.and_eq_true, beq_iff_eq, beq_iff_eq] at exactly
      omega
    apply Footprint.resize sound longer
    · rfl
    · simp only [extendedRegions, found, if_true]
  | false =>
    have unmarked : (remapRegion first newPages source).cow = false := rfl
    apply Footprint.push sound unmarked
    · rfl
    · simp only [extendedRegions, found, if_false, Bool.false_eq_true]

theorem shrink_footprint (sound : memory.Sound roots) (isRoot : roots space.pml4)
    (aligned : first % 4096 = 0) (notLonger : newPages ≤ oldPages)
    (inside : first + oldPages * 4096 ≤ userTop)
    (whole : newPages = oldPages → ∀ region ∈ space.regions, region.start = first →
      region.stop ≤ first + newPages * 4096)
    (isCut : cut = space.cutPages memory (first + newPages * 4096) (oldPages - newPages)) :
    Footprint memory space cut.2
      { cut.1 with
        regions := updateFirst (·.start == first)
          (fun region => { region with stop := first + newPages * 4096 }) cut.1.regions } roots
      (Within first oldPages) := by
  have cutInside := (pages_range first notLonger).trans_le inside
  have cutting := cutPages_footprint sound isRoot (by omega) cutInside
  rw [← isCut] at cutting
  refine (cutting.mono fun _ => within_tail notLonger).trans
    (.resize cutting.sound ?_ rfl rfl)
  intro part member starts
  rw [beq_iff_eq] at starts
  rw [isCut] at member
  rcases mem_cutPages member with ⟨region, isRegion, isPart⟩
  rcases Nat.eq_or_lt_of_le notLonger with same | shorter
  · rw [PartOf, if_pos (by omega)] at isPart
    rw [isPart] at starts ⊢
    exact whole same region isRegion starts
  · exact isPart.stop_le (by omega) (by omega)

theorem remapDest_aligned (base : space.mmapBase % 4096 = 0) :
    space.remapDest flags newAddr % 4096 = 0 := by
  rw [remapDest]
  split
  · exact alignDown_aligned newAddr
  · exact base

section

variable (effect : RemapEffect space memory oldAddr oldLen newLen flags newAddr answer nextSpace
  next)
include effect

theorem RemapEffect.footprint
    (sound : memory.Sound roots) (isRoot : roots space.pml4) (base : space.mmapBase % 4096 = 0)
    (within : space.RemapWithin oldAddr oldLen newLen flags newAddr)
    (whole : space.RemapWhole oldAddr oldLen newLen) :
    Footprint memory space next nextSpace roots
      (space.RemapRange oldAddr oldLen newLen flags newAddr) := by
  have aligned := alignDown_aligned oldAddr
  have end_eq := fun longer : pageCount oldLen < pageCount newLen =>
    pages_range (alignDown oldAddr) (le_of_lt longer)
  have blocking : ∀ {reached}, pageCount oldLen < pageCount newLen →
      Blocked space memory (alignDown oldAddr + pageCount oldLen * 4096)
        (pageCount newLen - pageCount oldLen)
        (space.inherited (alignDown oldAddr) (pageCount oldLen * 4096)).prot reached →
      Footprint memory space reached space roots
        (space.RemapRange oldAddr oldLen newLen flags newAddr) := by
    intro reached longer blocked
    cases blocked with
    | occupied => exact .refl sound
    | starved free undone =>
      have grown := within.grown longer
      rw [end_eq longer] at free
      rw [← end_eq longer] at grown
      refine (populate_footprint sound isRoot (by omega) grown (.inr (.inl rfl)) rfl undone).mono ?_
      intro number isIn
      exact .inr ⟨longer, .inl ⟨within_tail (le_of_lt longer) isIn, free⟩⟩
  cases effect with
  | refused => exact .refl sound
  | removed => exact (cutPages_footprint sound isRoot aligned within.old).mono fun _ => .inl
  | shrunk nonzero notLonger isCut =>
    exact (shrink_footprint sound isRoot aligned notLonger within.old (whole nonzero)
      isCut).mono fun _ => .inl
  | @extended next longer clear populated =>
    have grown := within.grown longer
    rw [← end_eq longer] at grown
    have filling := populate_footprint sound isRoot (by omega) grown (.inr (.inl rfl)) rfl
      populated
    refine (filling.mono ?_).trans (extended_footprint filling.sound (le_of_lt longer))
    intro number isIn
    exact .inr ⟨longer, .inl ⟨within_tail (le_of_lt longer) isIn, clear⟩⟩
  | stuck longer blocked => exact blocking longer blocked
  | stranded longer blocked movable placement undone =>
    have blocking := blocking longer blocked
    have moving := placement.populate_footprint blocking.sound isRoot (remapDest_aligned base)
      (within.moved longer movable) (.inr (.inr rfl)) undone
    refine blocking.trans (moving.mono ?_)
    intro number isIn
    exact .inr ⟨longer, .inr ⟨movable, isIn⟩⟩
  | @moved reached target filled targetSpace longer blocked movable placement cleared populated
      cut isCut =>
      have blocking := blocking longer blocked
      have moving := placement.populate_footprint blocking.sound isRoot (remapDest_aligned base)
        (within.moved longer movable) (.inr (.inr rfl)) populated
      have isTarget : roots targetSpace.pml4 := by
        rw [moving.root]
        exact isRoot
      have leaving := cutPages_footprint moving.sound isTarget aligned within.old
      rw [← isCut] at leaving
      have unmarked : (remapRegion (space.remapDest flags newAddr) (pageCount newLen)
        (space.inherited (alignDown oldAddr) (pageCount oldLen * 4096))).cow = false := rfl
      refine (blocking.trans (moving.mono ?_)).trans
        ((leaving.mono fun _ => .inl).trans (.push leaving.sound unmarked rfl rfl))
      intro number isIn
      exact .inr ⟨longer, .inr ⟨movable, isIn⟩⟩

theorem RemapEffect.pages
    (sound : memory.Sound roots) (isRoot : roots space.pml4) (base : space.mmapBase % 4096 = 0)
    (within : space.RemapWithin oldAddr oldLen newLen flags newAddr) :
    next.Sound roots ∧ ∀ {number}, number < userPages →
      ¬space.RemapRange oldAddr oldLen newLen flags newAddr number →
      next.page space.pml4 number = memory.page space.pml4 number := by
  by_cases keeps : newLen ≠ 0 ∧ pageCount newLen = pageCount oldLen
  · cases effect with
    | refused => exact ⟨sound, fun _ _ => rfl⟩
    | removed zero => exact absurd zero keeps.1
    | shrunk nonzero notLonger isCut =>
      rw [keeps.2, Nat.sub_self, cutPages, if_pos rfl] at isCut
      rw [isCut]
      exact ⟨sound, fun _ _ => rfl⟩
    | extended longer | stuck longer | stranded longer | moved longer => omega
  · have footprint := effect.footprint sound isRoot base within
      fun nonzero same => absurd ⟨nonzero, same⟩ keeps
    exact ⟨footprint.sound, fun user notIn => (footprint.outside user notIn).page⟩

end

end Footprint

/-! ## Order of the regions -/

/-- What the call relies on and does not check. -/
structure RemapClear (space : AddressSpace) (oldAddr oldLen newLen flags newAddr : Nat) :
    Prop where
  within : space.RemapWithin oldAddr oldLen newLen flags newAddr
  /-- A region at the start of the old range gets the new end, whatever else is there. -/
  shrink : newLen ≠ 0 → pageCount newLen ≤ pageCount oldLen → ∀ region ∈ space.regions,
    region.start = alignDown oldAddr → 0 < pageCount newLen ∧
      ∀ other ∈ space.regions, other ≠ region →
        other.meets (alignDown oldAddr) (alignDown oldAddr + pageCount newLen * 4096) = false
  /-- Growth in place adds a region if none has the bounds of the old range. -/
  extend : pageCount oldLen < pageCount newLen →
    (∃ region ∈ space.regions, isExactly (alignDown oldAddr) (pageCount oldLen) region = true) ∨
    ∀ region ∈ space.regions,
      region.meets (alignDown oldAddr) (alignDown oldAddr + pageCount oldLen * 4096) = false
  /-- The bump pointer does not look at the regions. -/
  move : pageCount oldLen < pageCount newLen → flags % 2 ≠ 0 →
    remapFixed flags newAddr = false → ∀ region ∈ space.regions,
      region.meets space.mmapBase (space.mmapBase + pageCount newLen * 4096) = false

section Neat

variable {first : Nat}

theorem shrink_neat (neat : Neat space.regions) (aligned : first % 4096 = 0)
    (notLonger : newPages ≤ oldPages)
    (clear : ∀ region ∈ space.regions, region.start = first → 0 < newPages ∧
      ∀ other ∈ space.regions, other ≠ region →
        other.meets first (first + newPages * 4096) = false)
    (isCut : cut = space.cutPages memory (first + newPages * 4096) (oldPages - newPages)) :
    Neat (updateFirst (·.start == first)
      (fun region => { region with stop := first + newPages * 4096 }) cut.1.regions) := by
  -- A part that starts where the old range does is the start of a region.
  have origin : ∀ part ∈ cut.1.regions, part.start = first →
      ∃ region ∈ space.regions, region.start = first ∧
        PartOf (first + newPages * 4096) (oldPages - newPages) region part := by
    intro part member starts
    rw [isCut] at member
    rcases mem_cutPages member with ⟨region, isRegion, isPart⟩
    refine ⟨region, isRegion, ?_, isPart⟩
    rw [PartOf] at isPart
    split at isPart
    next => rw [← isPart, starts]
    rcases start_of_mem_cutRegion isPart with same | late
    · rw [← same, starts]
    · omega
  have newAligned : (first + newPages * 4096) % 4096 = 0 := by omega
  have neatCut : Neat cut.1.regions := by
    rw [isCut]
    exact neat.cutPages memory newAligned
  refine neatCut.resize newAligned ?_ ?_
  · intro part member starts
    rw [beq_iff_eq] at starts
    rcases origin part member starts with ⟨region, isRegion, regionStart, _⟩
    have positive := (clear region isRegion regionStart).1
    omega
  · intro part member starts other otherMember different
    rw [beq_iff_eq] at starts
    rcases origin part member starts with ⟨region, isRegion, regionStart, isPart⟩
    rw [starts]
    have partNonempty := neatCut.nonempty part member
    have apart := neatCut.of_mem member otherMember different.symm
    rw [isCut] at otherMember
    rcases mem_cutPages otherMember with ⟨source, isSource, isOther⟩
    by_cases same : source = region
    · -- Another part of the same region is what lies beyond the cut.
      rw [same, PartOf] at isOther
      rw [PartOf] at isPart
      rw [meets_eq_false]
      rcases apart with low | high
      · split at isOther
        next empty =>
          rw [if_pos empty] at isPart
          exact absurd (isOther.trans isPart.symm) different
        next =>
          rcases start_of_mem_cutRegion isOther with sameStart | late
          · omega
          · omega
      · exact .inr (by omega)
    · have clearSource := (clear region isRegion regionStart).2 source isSource same
      exact meets_narrow clearSource isOther.narrow.1 isOther.narrow.2 le_rfl

theorem extended_neat (neat : Neat space.regions) (aligned : first % 4096 = 0)
    (longer : oldPages < newPages) (free : ∀ region ∈ space.regions,
      region.meets (first + oldPages * 4096) (first + newPages * 4096) = false)
    (clear : (∃ region ∈ space.regions, isExactly first oldPages region = true) ∨
      ∀ region ∈ space.regions, region.meets first (first + oldPages * 4096) = false) :
    Neat (space.extendedRegions first oldPages newPages source) := by
  have newAligned : (first + newPages * 4096) % 4096 = 0 := by omega
  rw [extendedRegions]
  split
  next found =>
    refine neat.resize newAligned ?_ ?_
    · intro region _ exactly
      rw [isExactly, Bool.and_eq_true, beq_iff_eq, beq_iff_eq] at exactly
      omega
    · intro region member exactly other otherMember different
      rw [isExactly, Bool.and_eq_true, beq_iff_eq, beq_iff_eq] at exactly
      have nonempty := neat.nonempty other otherMember
      have apart := neat.of_mem member otherMember different.symm
      have beyond := meets_eq_false.mp (free other otherMember)
      rw [meets_eq_false]
      rcases apart with low | high <;> omega
  next notFound =>
    have vacant : ∀ region ∈ space.regions,
        region.meets first (first + oldPages * 4096) = false := by
      rcases clear with ⟨region, member, exactly⟩ | vacant
      · exact absurd (List.any_eq_true.mpr ⟨region, member, exactly⟩) notFound
      · exact vacant
    refine neat.push ⟨aligned, newAligned⟩ ?_ ?_
    · simp only [remapRegion]
      omega
    · intro other member
      have nonempty := neat.nonempty other member
      rw [meets_eq_false]
      rcases meets_eq_false.mp (vacant other member) with high | low
      · rcases meets_eq_false.mp (free other member) with far | near
        · exact .inl far
        · exact absurd (lt_of_lt_of_le nonempty near) (Nat.not_lt.mpr high)
      · exact .inr low

theorem Placement.narrow {pages addr : Nat}
    (placement : Placement space memory pages addr nextSpace next) :
    ∀ part ∈ nextSpace.regions, ∃ region ∈ space.regions,
      region.start ≤ part.start ∧ part.stop ≤ region.stop := by
  intro part member
  cases placement with
  | fixed =>
    rcases mem_cutPages member with ⟨region, isRegion, isPart⟩
    exact ⟨region, isRegion, isPart.narrow⟩
  | hinted | bumped => exact ⟨part, member, le_rfl, le_rfl⟩

theorem RemapEffect.neat
    (effect : RemapEffect space memory oldAddr oldLen newLen flags newAddr answer nextSpace next)
    (base : space.mmapBase % 4096 = 0)
    (clear : space.RemapClear oldAddr oldLen newLen flags newAddr) (neat : Neat space.regions) :
    Neat nextSpace.regions := by
  have aligned := alignDown_aligned oldAddr
  cases effect with
  | refused | stuck => exact neat
  | removed => exact neat.cutPages memory aligned
  | shrunk nonzero notLonger isCut =>
    exact shrink_neat neat aligned notLonger (clear.shrink nonzero notLonger) isCut
  | extended longer free =>
    exact extended_neat neat aligned longer free (clear.extend longer)
  | stranded _ _ _ placement => exact placement.neat neat
  | @moved reached target filled targetSpace longer blocked movable placement cleared populated
      cut isCut =>
      have neatTarget := placement.neat neat
      have destAligned := @remapDest_aligned space flags newAddr base
      have neatCut : Neat cut.1.regions := by
        rw [isCut]
        exact neatTarget.cutPages filled aligned
      have vacant : ∀ region ∈ targetSpace.regions, region.meets (space.remapDest flags newAddr)
          (space.remapDest flags newAddr + pageCount newLen * 4096) = false := by
        cases fixed : remapFixed flags newAddr with
        | true => exact cleared fixed
        | false =>
          intro part member
          have unfixed := clear.move longer movable fixed
          rw [remapDest, fixed, if_neg Bool.false_ne_true]
          rcases placement.narrow part member with ⟨region, isRegion, lower, upper⟩
          exact meets_narrow (unfixed region isRegion) lower upper le_rfl
      refine neatCut.push ⟨destAligned, ?_⟩ ?_ ?_
      · simp only [remapRegion]
        omega
      · simp only [remapRegion]
        omega
      · intro part member
        rw [isCut] at member
        rcases mem_cutPages member with ⟨region, isRegion, isPart⟩
        exact meets_narrow (vacant region isRegion) isPart.narrow.1 isPart.narrow.2
          le_rfl

end Neat

end Qunix.Memory.Vmm.AddressSpace
