import Qunix.Memory.Vmm.Protection
import Qunix.Memory.Vmm.RegionCalls

/-! # The footprint of a call

What a call of one process does to a page is one of two things: the page is given up
or has a frame of its own, or nothing about it changes. The footprint is where the
first can happen.
-/

namespace Qunix.Memory.Vmm.AddressSpace

open Foundation Arch MemoryState VmaRegion

variable {allocator : FrameAllocator} {memory next last : MemoryState allocator}
variable {space nextSpace lastSpace : AddressSpace} {roots : Nat → Prop}

/-- The page is absent, or it is no copy-on-write page and nobody else maps its frame. -/
def Fresh (memory : MemoryState allocator) (roots : Nat → Prop) (root number : Nat) : Prop :=
  ∀ entry, memory.page root number = some entry →
    entry.flags.cow = false ∧ memory.Sole roots root number entry.frame

/-- The page keeps its entry, and the regions over it are still there. -/
structure Kept (memory : MemoryState allocator) (space : AddressSpace)
    (next : MemoryState allocator) (nextSpace : AddressSpace) (number : Nat) : Prop where
  page : next.page space.pml4 number = memory.page space.pml4 number
  region : ∀ region ∈ space.regions, region.Covers number →
    ∃ same ∈ nextSpace.regions, same.Covers number ∧ same.Alike region

structure Footprint (memory : MemoryState allocator) (space : AddressSpace)
    (next : MemoryState allocator) (nextSpace : AddressSpace) (roots : Nat → Prop)
    (range : Nat → Prop) : Prop where
  sound : next.Sound roots
  root : nextSpace.pml4 = space.pml4
  elsewhere : ∀ {other number}, roots other → number < userPages → other ≠ space.pml4 →
    next.page other number = memory.page other number
  here : ∀ {number}, number < userPages →
    Fresh next roots space.pml4 number ∨ Kept memory space next nextSpace number
  outside : ∀ {number}, number < userPages → ¬range number →
    Kept memory space next nextSpace number
  /-- Only a fork marks regions. -/
  origin : ∀ region ∈ nextSpace.regions, region.cow = true →
    ∃ old ∈ space.regions, region.Alike old

/-- The pages of `count * 4096` bytes from `first` on. -/
def Within (first count number : Nat) : Prop :=
  first ≤ number * 4096 ∧ number * 4096 < first + count * 4096

variable {count number addr first : Nat}
  {undo : MemoryState allocator → Nat → Nat → MemoryState allocator}
  {content : MemoryState allocator → Nat → Nat → UInt8} {ok : Bool}

theorem touched_within (aligned : first % 4096 = 0) (inside : first + count * 4096 ≤ userTop) :
    Touched first count number ↔ Within first count number :=
  touched_iff inside aligned

namespace Kept

theorem refl (memory : MemoryState allocator) (space : AddressSpace) (number : Nat) :
    Kept memory space memory space number :=
  ⟨rfl, fun region member covers => ⟨region, member, covers, .refl region⟩⟩

theorem trans (left : Kept memory space next nextSpace number)
    (root : nextSpace.pml4 = space.pml4) (right : Kept next nextSpace last lastSpace number) :
    Kept memory space last lastSpace number where
  page := by
    have later := right.page
    rw [root] at later
    exact later.trans left.page
  region := by
    intro region member covers
    rcases left.region region member covers with ⟨middle, isMiddle, middleCovers, middleAlike⟩
    rcases right.region middle isMiddle middleCovers with ⟨same, isSame, sameCovers, alike⟩
    exact ⟨same, isSame, sameCovers, alike.trans middleAlike⟩

end Kept

namespace Footprint

variable {range : Nat → Prop}

theorem refreshes (footprint : Footprint memory space next nextSpace roots range) :
    Refreshes memory next roots space.pml4 where
  sound := footprint.sound
  elsewhere := footprint.elsewhere
  here := by
    intro number entry user present
    rcases footprint.here user with fresh | kept
    · exact .inr (fresh entry present).2
    · exact .inl (kept.page.symm.trans present)

theorem refl (sound : memory.Sound roots) : Footprint memory space memory space roots range where
  sound := sound
  root := rfl
  elsewhere := fun _ _ _ => rfl
  here := fun _ => .inr (.refl memory space _)
  outside := fun _ _ => .refl memory space _
  origin := fun region member _ => ⟨region, member, .refl region⟩

theorem mono (footprint : Footprint memory space next nextSpace roots range)
    {larger : Nat → Prop} (contained : ∀ number, range number → larger number) :
    Footprint memory space next nextSpace roots larger :=
  { footprint with
    outside := fun user notIn => footprint.outside user fun isIn => notIn (contained _ isIn) }

theorem trans (left : Footprint memory space next nextSpace roots range)
    (right : Footprint next nextSpace last lastSpace roots range) :
    Footprint memory space last lastSpace roots range where
  sound := right.sound
  root := right.root.trans left.root
  elsewhere := by
    intro other number isOther user different
    have later := right.elsewhere isOther user (by rw [left.root]; exact different)
    exact later.trans (left.elsewhere isOther user different)
  here := by
    intro number user
    rcases right.here user with fresh | rightKept
    · rw [left.root] at fresh
      exact .inl fresh
    rcases left.here user with fresh | leftKept
    · apply Or.inl
      intro entry present
      have later := rightKept.page
      have refreshes := right.refreshes
      rw [left.root] at later refreshes
      rcases fresh entry (later.symm.trans present) with ⟨notCow, sole⟩
      exact ⟨notCow, refreshes.sole user present sole⟩
    · exact .inr (leftKept.trans left.root rightKept)
  outside := fun user notIn => (left.outside user notIn).trans left.root (right.outside user notIn)
  origin := by
    intro region member marked
    rcases right.origin region member marked with ⟨middle, isMiddle, middleAlike⟩
    rcases left.origin middle isMiddle (middleAlike.cow.symm.trans marked) with
      ⟨old, isOld, alike⟩
    exact ⟨old, isOld, middleAlike.trans alike⟩

theorem record (sound : memory.Sound roots) (root : nextSpace.pml4 = space.pml4)
    (kept : ∀ {number}, ∀ region ∈ space.regions, region.Covers number →
      ∃ same ∈ nextSpace.regions, same.Covers number ∧ same.Alike region)
    (origin : ∀ region ∈ nextSpace.regions, region.cow = true →
      ∃ old ∈ space.regions, region.Alike old) :
    Footprint memory space memory nextSpace roots range where
  sound := sound
  root := root
  elsewhere := fun _ _ _ => rfl
  here := fun _ => .inr ⟨rfl, kept⟩
  outside := fun _ _ => ⟨rfl, kept⟩
  origin := origin

theorem push (sound : memory.Sound roots) {region : VmaRegion} (unmarked : region.cow = false)
    (root : nextSpace.pml4 = space.pml4) (regions : nextSpace.regions = space.regions ++ [region]) :
    Footprint memory space memory nextSpace roots range := by
  apply record sound root <;> rw [regions]
  · intro number old member covers
    exact ⟨old, List.mem_append_left _ member, covers, .refl old⟩
  · intro other member marked
    rcases List.mem_append.mp member with member | member
    · exact ⟨other, member, .refl other⟩
    · rw [List.mem_singleton.mp member, unmarked] at marked
      cases marked

theorem resize (sound : memory.Sound roots) {test : VmaRegion → Bool} {stop : Nat}
    (larger : ∀ region ∈ space.regions, test region = true → region.stop ≤ stop)
    (root : nextSpace.pml4 = space.pml4) (regions : nextSpace.regions =
      updateFirst test (fun region => { region with stop := stop }) space.regions) :
    Footprint memory space memory nextSpace roots range := by
  apply record sound root <;> rw [regions]
  · intro number old member covers
    rcases kept_updateFirst member with same | ⟨tested, changed⟩
    · exact ⟨old, same, covers, .refl old⟩
    · refine ⟨_, changed, ⟨covers.1, ?_⟩, ⟨rfl, rfl, rfl, rfl⟩⟩
      exact lt_of_lt_of_le covers.2 (larger old member tested)
  · intro region member _
    rcases mem_updateFirst member with old | ⟨old, isOld, _, changed⟩
    · exact ⟨region, old, .refl region⟩
    · subst changed
      exact ⟨old, isOld, ⟨rfl, rfl, rfl, rfl⟩⟩

end Footprint

/-! ## Page loops -/

section Pages

variable {touched range : Nat → Prop}

theorem Unmaps.cut (isRoot : roots space.pml4)
    (unmaps : Unmaps memory next roots space.pml4 touched) (root : nextSpace.pml4 = space.pml4)
    (kept : ∀ {number}, ¬touched number → ∀ region ∈ space.regions, region.Covers number →
      ∃ same ∈ nextSpace.regions, same.Covers number ∧ same.Alike region)
    (origin : ∀ region ∈ nextSpace.regions, ∃ old ∈ space.regions, region.Alike old) :
    Footprint memory space next nextSpace roots touched := by
  classical
  have outside : ∀ {number}, number < userPages → ¬touched number →
      Kept memory space next nextSpace number := by
    intro number user notIn
    exact ⟨unmaps.outside isRoot user fun both => notIn both.2, kept notIn⟩
  refine ⟨unmaps.sound, root, fun isOther user different =>
    unmaps.outside isOther user fun both => different both.1, ?_, outside,
    fun region member _ => origin region member⟩
  intro number user
  by_cases isIn : touched number
  · apply Or.inl
    intro entry present
    rw [unmaps.inside user isIn] at present
    cases present
  · exact .inr (outside user isIn)

theorem Unmaps.footprint (isRoot : roots space.pml4)
    (unmaps : Unmaps memory next roots space.pml4 touched) :
    Footprint memory space next space roots touched := by
  apply Unmaps.cut isRoot unmaps
  · rfl
  · intro number _
    exact (Kept.refl memory space number).region
  · intro region member
    exact ⟨region, member, .refl region⟩

variable {flags : PageFlags}

theorem Populates.footprint (isRoot : roots space.pml4)
    (populates : Populates memory next roots space.pml4 touched flags)
    (notCow : flags.cow = false) : Footprint memory space next space roots touched := by
  classical
  have outside : ∀ {number}, number < userPages → ¬touched number →
      Kept memory space next space number := by
    intro number user notIn
    exact ⟨populates.outside isRoot user fun both => notIn both.2,
      (Kept.refl memory space number).region⟩
  refine ⟨populates.sound, rfl, fun isOther user different =>
    populates.outside isOther user fun both => different both.1, ?_, outside,
    fun region member _ => ⟨region, member, .refl region⟩⟩
  intro number user
  by_cases isIn : touched number
  · apply Or.inl
    intro entry present
    rcases populates.inside user isIn with ⟨frame, mapped, sole⟩
    rw [mapped, Option.some.injEq] at present
    rw [← present]
    exact ⟨notCow, sole⟩
  · exact .inr (outside user isIn)

theorem Renews.footprint (isRoot : roots space.pml4)
    (renews : Renews memory next roots space.pml4 number flags) (notCow : flags.cow = false) :
    Footprint memory space next space roots (· = number) := by
  have populates : Populates memory next roots space.pml4 (· = number) flags := by
    refine ⟨renews.sound, ?_, renews.page⟩
    intro other _ same
    rw [same]
    exact renews.own
  exact Populates.footprint isRoot populates notCow

theorem Grows.footprint (sound : memory.Sound roots) (isRoot : roots space.pml4)
    (grows : Grows memory next roots) : Footprint memory space next space roots range where
  sound := grows.sound sound
  root := rfl
  elsewhere := fun isOther user _ => grows.page isOther user
  here := fun user => .inr ⟨grows.page isRoot user, (Kept.refl memory space _).region⟩
  outside := fun user _ => ⟨grows.page isRoot user, (Kept.refl memory space _).region⟩
  origin := fun region member _ => ⟨region, member, .refl region⟩

theorem touched_mono {done : Nat} (fewer : done ≤ count) (touched : Touched addr done number) :
    Touched addr count number := by
  rcases touched with ⟨index, below, same⟩
  exact ⟨index, lt_of_lt_of_le below fewer, same⟩

theorem populate_footprint (sound : memory.Sound roots) (isRoot : roots space.pml4)
    (aligned : addr % 4096 = 0) (inside : addr + count * 4096 ≤ userTop)
    (undone : undo = releasePage ∨ undo = discardPage ∨ undo = keepPage)
    (notCow : flags.cow = false)
    (mapped : mapFresh undo content space.pml4 addr flags 0 count memory = some (ok, next)) :
    Footprint memory space next space roots (Within addr count) := by
  have user : ∀ position, position < 0 + count →
      pageNumber (pageAddress addr position) < userPages := by
    intro position below
    rw [zero_add] at below
    exact pageNumber_user inside below
  have within : ∀ {done}, done ≤ count → ∀ number, Touched addr done number →
      Within addr count number := by
    intro done fewer number touched
    exact (touched_within aligned inside).mp (touched_mono fewer touched)
  rcases mapFresh_spec isRoot count 0 memory user (.refl sound) mapped with
    ⟨_, populates⟩ | ⟨_, position, reached, fewer, populates, kept⟩
  · exact (Populates.footprint isRoot populates notCow).mono
      (within (le_of_eq (zero_add count)))
  rw [zero_add] at fewer
  have populating := (Populates.footprint isRoot populates notCow).mono (within fewer)
  have below : ∀ index, index < position →
      pageNumber (pageAddress addr index) < userPages := fun index isBelow =>
    pageNumber_user inside (lt_of_lt_of_le isBelow fewer)
  rw [kept]
  rcases undone with rfl | rfl | rfl
  · have unmaps := forPages_releasePage populates.sound isRoot below
    exact populating.trans ((Unmaps.footprint isRoot unmaps).mono (within fewer))
  · have unmaps := forPages_discardPage populates.sound isRoot below (by
      intro number entry numberUser touched present
      rcases populates.inside numberUser touched with ⟨frame, own, sole⟩
      rw [own, Option.some.injEq] at present
      rw [← present]
      exact sole)
    exact populating.trans ((Unmaps.footprint isRoot unmaps).mono (within fewer))
  · rw [forPages_keepPage]
    exact populating

end Pages

/-! ## Calls -/

/-- Where `mmap` puts the new mapping. -/
def MmapRange (space : AddressSpace) (memory : MemoryState allocator) (hint : Option Nat)
    (len mapFlags number : Nat) : Prop :=
  ∃ addr, (space.mmapPlace memory hint len mapFlags).1 = some addr ∧
    Within addr (pageCount len) number

def BrkRange (space : AddressSpace) (newBrk number : Nat) : Prop :=
  space.brkStart ≤ newBrk ∧
    ((alignUp space.brk ≤ number * 4096 ∧ number * 4096 < alignUp newBrk) ∨
      (alignUp newBrk ≤ number * 4096 ∧ number * 4096 < alignUp space.brk))

section Calls

variable (sound : memory.Sound roots) (isRoot : roots space.pml4)

include sound isRoot

theorem cutPages_footprint (aligned : first % 4096 = 0) (inside : first + count * 4096 ≤ userTop) :
    Footprint memory space (space.cutPages memory first count).2
      (space.cutPages memory first count).1 roots (Within first count) := by
  rcases eq_zero_or_pos count with empty | positive
  · rw [cutPages, if_pos empty]
    exact .refl sound
  have unmaps := forPages_releasePage sound isRoot fun index => pageNumber_user inside
  rw [← cutPages_memory] at unmaps
  refine (Unmaps.cut isRoot unmaps ?_ ?_ ?_).mono fun number =>
    (touched_within aligned inside).mp
  · rw [cutPages_space]
  · intro number notIn region member covers
    rw [touched_within aligned inside] at notIn
    rw [cutPages_regions space memory positive]
    exact exists_part member covers notIn
  · intro part member
    rcases mem_cutPages member with ⟨region, isRegion, isPart⟩
    exact ⟨region, isRegion, isPart.alike⟩

variable {len pages : Nat} {prot : Prot}

theorem munmap_footprint (inside : addr + len ≤ userTop) :
    Footprint memory space (space.munmap memory addr len).2 (space.munmap memory addr len).1
      roots (Within (alignDown addr) (unmapCount addr len)) := by
  rw [munmap_eq inside]
  exact cutPages_footprint sound isRoot (alignDown_aligned addr) (unmapCount_user inside)

theorem Placement.footprint (placement : Placement space memory pages addr nextSpace next)
    (inside : addr + pages * 4096 ≤ userTop) :
    Footprint memory space next nextSpace roots (Within addr pages) := by
  cases placement with
  | fixed aligned => exact cutPages_footprint sound isRoot aligned inside
  | hinted => exact .refl sound
  | bumped =>
    apply Footprint.record sound
    · rfl
    · intro number
      exact (Kept.refl memory space number).region
    · intro region member _
      exact ⟨region, member, .refl region⟩

theorem Placement.populate_footprint {dest : Nat} {target filled : MemoryState allocator}
    {targetSpace : AddressSpace}
    (placement : Placement space memory pages dest targetSpace target) (aligned : dest % 4096 = 0)
    (inside : dest + pages * 4096 ≤ userTop)
    (undone : undo = releasePage ∨ undo = discardPage ∨ undo = keepPage)
    (mapped : mapFresh undo content space.pml4 dest (protToFlags prot) 0 pages target =
      some (ok, filled)) :
    Footprint memory space filled targetSpace roots (Within dest pages) := by
  have placing := placement.footprint sound isRoot inside
  rw [← placement.sameRoot] at isRoot mapped
  exact placing.trans
    (AddressSpace.populate_footprint placing.sound isRoot aligned inside undone rfl mapped)

theorem MmapEffect.footprint {hint : Option Nat} {mapFlags : Nat} {fileData : Option (List UInt8)}
    {answer : Option Nat}
    (effect : MmapEffect space memory hint len prot mapFlags fileData answer nextSpace next)
    (base : space.mmapBase % 4096 = 0)
    (user : ∀ addr, (space.mmapPlace memory hint len mapFlags).1 = some addr →
      addr + pageCount len * 4096 ≤ userTop) :
    Footprint memory space next nextSpace roots (space.MmapRange memory hint len mapFlags) := by
  have range : ∀ {addr targetSpace target},
      space.mmapPlace memory hint len mapFlags = (some addr, targetSpace, target) →
      ∀ number, Within addr (pageCount len) number →
        space.MmapRange memory hint len mapFlags number := by
    intro addr targetSpace target place number within
    exact ⟨addr, by rw [place], within⟩
  cases effect with
  | refused => exact .refl sound
  | @failed addr _ target next place placement undone =>
    have filling := placement.populate_footprint sound isRoot (placement.addr_aligned base)
      (user addr (by rw [place])) (.inl rfl) undone
    exact filling.mono (range place)
  | @mapped addr targetSpace target next place placement populated =>
    have filling := placement.populate_footprint sound isRoot (placement.addr_aligned base)
      (user addr (by rw [place])) (.inl rfl) populated
    refine (filling.trans ?_).mono (range place)
    have unmarked : (mmapRegion addr (pageCount len) prot mapFlags fileData).cow = false := rfl
    exact .push filling.sound unmarked rfl rfl

theorem BrkEffect.footprint {newBrk answer : Nat}
    (effect : BrkEffect space memory newBrk answer nextSpace next) (heap : space.HeapBounds)
    (inside : space.HeapInside) (neat : Neat space.regions) (user : newBrk ≤ userTop) :
    Footprint memory space next nextSpace roots (space.BrkRange newBrk) := by
  have above : ∀ {count}, space.brk < newBrk →
      alignUp space.brk + count * 4096 = alignUp newBrk →
      ∀ number, Within (alignUp space.brk) count number → space.BrkRange newBrk number := by
    intro count larger range number within
    refine ⟨le_trans heap.ordered (le_of_lt larger), .inl ?_⟩
    rw [← range]
    exact within
  cases effect with
  | idle => exact .refl sound
  | @shrunk count lower smaller range =>
    have below := range.trans_le (alignUp_le heap.user)
    have cutting := cutPages_footprint sound isRoot (alignUp_aligned user) below
    have shorter : ∀ part ∈ (space.cutPages memory (alignUp newBrk) count).1.regions,
        isHeap part = true → part.stop ≤ alignUp newBrk := by
      intro part member partHeap
      rcases mem_cutPages member with ⟨region, isRegion, isPart⟩
      have regionHeap := isHeap_alike isPart.alike ▸ partHeap
      have reaches : region.stop ≤ alignUp newBrk + count * 4096 := by
        rw [range]
        exact (inside region isRegion regionHeap).2
      rw [(isPart.lower reaches (neat.nonempty region isRegion)).1]
      exact min_le_right _ _
    refine (cutting.trans (.resize cutting.sound shorter ?_ rfl)).mono ?_
    · rfl
    · intro number within
      refine ⟨lower, .inr ?_⟩
      rw [← range]
      exact within
  | @failed count next larger range undone =>
    have below := range.trans_le (alignUp_le user)
    exact (populate_footprint sound isRoot (alignUp_aligned heap.user) below (.inr (.inl rfl))
      rfl undone).mono (above larger range)
  | @grown count next larger range populated =>
    have below := range.trans_le (alignUp_le user)
    have filling := populate_footprint sound isRoot (alignUp_aligned heap.user) below
      (.inr (.inl rfl)) rfl populated
    refine (filling.trans ?_).mono (above larger range)
    cases found : space.regions.any isHeap with
    | true =>
      have longer : ∀ region ∈ space.regions, isHeap region = true →
          region.stop ≤ alignUp newBrk := fun region member regionHeap =>
        le_trans (inside region member regionHeap).2 (by omega)
      apply Footprint.resize filling.sound longer
      · rfl
      · simp only [withHeap, found, if_true]
    | false =>
      have unmarked : (heapRegion space.brkStart (alignUp newBrk)).cow = false := rfl
      apply Footprint.push filling.sound unmarked
      · rfl
      · simp only [withHeap, found, if_false, Bool.false_eq_true]

theorem FaultEffect.footprint {faultAddr : Nat} {handled : Bool}
    (effect : FaultEffect space memory faultAddr handled next) (user : faultAddr < userTop)
    (fed : ¬space.Starves memory faultAddr) :
    Footprint memory space next space roots (· = faultAddr / 4096) := by
  rcases pageNumber_alignDown user with ⟨numberEq, pageUser⟩
  cases effect with
  | ignored => exact .refl sound
  | takenOver present isCow isLast mapped =>
    exact Renews.footprint isRoot
      (takeOver_spec sound isRoot numberEq pageUser present isLast mapped) rfl
  | starved present isCow shared failed =>
    exact absurd ⟨_, present, isCow, by omega, congrArg Prod.fst failed⟩ fed
  | copied present isCow shared allocated mapped =>
    exact Renews.footprint isRoot
      (copy_spec sound isRoot numberEq pageUser present allocated mapped) rfl

end Calls

end Qunix.Memory.Vmm.AddressSpace
