import Qunix.Memory.Vmm.RegionOrder

/-! # What the memory calls leave of the order of the regions

Cuts keep it. `mmap` and `brk` keep it when the range they take is clear.
-/

namespace Qunix.Memory.Vmm.AddressSpace

open Foundation Arch MemoryState VmaRegion

variable {allocator : FrameAllocator} {memory next : MemoryState allocator}
variable {space nextSpace : AddressSpace} {len mapFlags newBrk : Nat} {hint answer : Option Nat}
  {prot : Prot} {fileData : Option (List UInt8)}

theorem Neat.cutPages (neat : Neat space.regions) (memory : MemoryState allocator)
    {first count : Nat} (aligned : first % 4096 = 0) :
    Neat (space.cutPages memory first count).1.regions := by
  rw [AddressSpace.cutPages]
  split
  · exact neat
  · exact neat.cut aligned (by omega) (by omega)

/-! ## `mmap` -/

namespace Placement

variable {pages addr : Nat}

theorem neat (placement : Placement space memory pages addr nextSpace next)
    (neat : Neat space.regions) : Neat nextSpace.regions := by
  cases placement with
  | fixed aligned => exact neat.cutPages memory aligned
  | hinted | bumped => exact neat

end Placement

/-- The mapping lies in the user half, and no region is left where it goes. Only the
bump pointer can pick such a place without looking. -/
structure MmapClear (space : AddressSpace) (memory : MemoryState allocator) (hint : Option Nat)
    (len mapFlags : Nat) : Prop where
  positive : 0 < pageCount len
  short : len ≤ userTop
  user : ∀ addr, (space.mmapPlace memory hint len mapFlags).1 = some addr →
    addr + pageCount len * 4096 ≤ userTop
  clear : ∀ addr, (space.mmapPlace memory hint len mapFlags).1 = some addr →
    ∀ region ∈ (space.mmapPlace memory hint len mapFlags).2.1.regions,
      region.meets addr (addr + pageCount len * 4096) = false

theorem MmapClear.fits (clear : space.MmapClear memory hint len mapFlags) :
    space.MmapFits memory hint len mapFlags where
  short := clear.short
  user := clear.user
  alike := by
    intro addr found region member meets
    rw [clear.clear addr found region member] at meets
    cases meets

theorem MmapEffect.neat
    (effect : MmapEffect space memory hint len prot mapFlags fileData answer nextSpace next)
    (clear : space.MmapClear memory hint len mapFlags) (base : space.mmapBase % 4096 = 0)
    (neat : Neat space.regions) : Neat nextSpace.regions := by
  cases effect with
  | refused => exact neat
  | failed place placement => exact placement.neat neat
  | @mapped addr targetSpace target next place placement populated =>
    have aligned := placement.addr_aligned base
    have positive := clear.positive
    have apart := clear.clear addr (by rw [place])
    rw [place] at apart
    refine (placement.neat neat).push ⟨aligned, ?_⟩ ?_ apart
    · simp only [mmapRegion]
      omega
    · simp only [mmapRegion]
      omega

/-! ## `brk` -/

/-- Nothing but the heap lies between the start of the heap and its new end, and the
heap is in one piece there. `brk` checks neither. -/
structure BrkClear (space : AddressSpace) (newBrk : Nat) : Prop where
  user : newBrk ≤ userTop
  clear : ∀ region ∈ space.regions, isHeap region = false →
    region.meets space.brkStart (alignUp newBrk) = false
  whole : ∀ heap ∈ space.regions, isHeap heap = true → ∀ other ∈ space.regions,
    isHeap other = true → other ≠ heap → other.meets heap.start (alignUp newBrk) = false

/-- The heap regions lie between the start and the end of the heap. -/
def HeapInside (space : AddressSpace) : Prop :=
  ∀ region ∈ space.regions, isHeap region = true →
    space.brkStart ≤ region.start ∧ region.stop ≤ alignUp space.brk

theorem brkClear_empty (empty : space.regions = []) (user : newBrk ≤ userTop) :
    space.HeapInside ∧ space.BrkClear newBrk := by
  have none : ∀ region, region ∉ space.regions := by
    intro region member
    rw [empty] at member
    cases member
  exact ⟨fun region member => absurd member (none region), user,
    fun region member => absurd member (none region),
    fun region member => absurd member (none region)⟩

theorem BrkClear.others (clear : space.BrkClear newBrk)
    (inside : space.HeapInside) {heap other : VmaRegion} (heapMember : heap ∈ space.regions)
    (heapIs : isHeap heap = true) (member : other ∈ space.regions) (different : other ≠ heap) :
    other.meets heap.start (alignUp newBrk) = false := by
  cases kind : isHeap other with
  | true => exact clear.whole heap heapMember heapIs other member kind different
  | false =>
    have lower := (inside heap heapMember heapIs).1
    rcases meets_eq_false.mp (clear.clear other member kind) with apart | apart
    · exact meets_eq_false.mpr (.inl apart)
    · exact meets_eq_false.mpr (.inr (le_trans apart lower))

theorem isHeap_alike {left right : VmaRegion} (alike : left.Alike right) :
    isHeap left = isHeap right := by
  rw [isHeap, isHeap, alike.kind]

/-- What a cut of `count` pages leaves of a region. -/
def PartOf (first count : Nat) (region part : VmaRegion) : Prop :=
  if count = 0 then part = region else part ∈ cutRegion first (first + count * 4096) region

theorem mem_cutPages {first count : Nat} {part : VmaRegion}
    (member : part ∈ (space.cutPages memory first count).1.regions) :
    ∃ region ∈ space.regions, PartOf first count region part := by
  rw [cutPages] at member
  split at member
  next none => exact ⟨part, member, by rw [PartOf, if_pos none]⟩
  next some =>
    rcases List.mem_flatMap.mp member with ⟨region, isRegion, isPart⟩
    exact ⟨region, isRegion, by rw [PartOf, if_neg some]; exact isPart⟩

namespace PartOf

variable {first count : Nat} {region part : VmaRegion}

section

variable (isPart : PartOf first count region part)
include isPart

theorem alike : part.Alike region := by
  rw [PartOf] at isPart
  split at isPart
  next => exact isPart ▸ ⟨rfl, rfl, rfl, rfl⟩
  next => exact alike_of_mem_cutRegion isPart

theorem narrow :
    region.start ≤ part.start ∧ part.stop ≤ region.stop := by
  rw [PartOf] at isPart
  split at isPart
  next => exact isPart ▸ ⟨le_rfl, le_rfl⟩
  next => exact narrow_of_mem_cutRegion isPart

theorem lower (below : region.stop ≤ first + count * 4096) (nonempty : region.start < region.stop) :
    part = { region with stop := min region.stop first } ∧ part.start < first := by
  rw [PartOf] at isPart
  split at isPart
  next none =>
    have whole : min region.stop first = region.stop := by omega
    rw [isPart, whole]
    exact ⟨rfl, by omega⟩
  next =>
    rcases mem_cutRegion.mp isPart with ⟨same, apart⟩ | ⟨meets, ⟨starts, same⟩ | ⟨behind, _⟩⟩
    · have whole : min region.stop first = region.stop := by omega
      rw [same, whole]
      exact ⟨rfl, by omega⟩
    · have lowerPart : min region.stop first = first := by omega
      rw [same, lowerPart]
      exact ⟨rfl, starts⟩
    · omega

end

end PartOf

theorem meets_narrow {first last later : Nat} {region part : VmaRegion}
    (clear : region.meets first last = false) (lower : region.start ≤ part.start)
    (upper : part.stop ≤ region.stop) (order : first ≤ later) : part.meets later last = false := by
  rw [meets_eq_false] at clear ⊢
  omega

theorem withHeap_neat {stop : Nat} (inside : space.HeapInside) (neat : Neat space.regions)
    (aligned : stop % 4096 = 0) (startAligned : space.brkStart % 4096 = 0)
    (nonempty : space.brkStart < stop) (reaches : alignUp space.brk ≤ stop)
    (others : ∀ heap ∈ space.regions, isHeap heap = true → ∀ other ∈ space.regions,
      other ≠ heap → other.meets heap.start stop = false)
    (vacant : ∀ region ∈ space.regions, isHeap region = false →
      region.meets space.brkStart stop = false) :
    Neat (space.withHeap stop) := by
  rw [withHeap]
  split
  next =>
    refine neat.resize aligned ?_ others
    intro region member heap
    have start := neat.nonempty region member
    have below := (inside region member heap).2
    omega
  next none =>
    refine neat.push ⟨startAligned, aligned⟩ nonempty ?_
    intro other member
    exact vacant other member (List.any_eq_false.mp (Bool.eq_false_iff.mpr none) other member
      |> Bool.eq_false_iff.mpr)

theorem BrkEffect.sameRoot {answer : Nat}
    (effect : BrkEffect space memory newBrk answer nextSpace next) :
    nextSpace.pml4 = space.pml4 := by
  cases effect with
  | idle | failed | grown => rfl
  | shrunk =>
    simp only
    rw [cutPages_space]

theorem BrkEffect.neat {answer : Nat} (heap : space.HeapBounds)
    (inside : space.HeapInside) (clear : space.BrkClear newBrk) (neat : Neat space.regions)
    (effect : BrkEffect space memory newBrk answer nextSpace next) :
    Neat nextSpace.regions := by
  have newAligned := alignUp_aligned clear.user
  cases effect with
  | idle | failed => exact neat
  | @shrunk count lower smaller range =>
    have below : ∀ region ∈ space.regions, isHeap region = true →
        region.stop ≤ alignUp newBrk + count * 4096 := by
      intro region member regionHeap
      rw [range]
      exact (inside region member regionHeap).2
    refine (neat.cutPages memory newAligned).resize newAligned ?_ ?_
    · intro part member partHeap
      rcases mem_cutPages member with ⟨region, isRegion, isPart⟩
      have regionHeap := isHeap_alike isPart.alike ▸ partHeap
      exact (isPart.lower (below region isRegion regionHeap) (neat.nonempty region isRegion)).2
    · intro part member partHeap other otherMember different
      rcases mem_cutPages member with ⟨region, isRegion, isPart⟩
      rcases mem_cutPages otherMember with ⟨origin, isOrigin, isOther⟩
      have regionHeap := isHeap_alike isPart.alike ▸ partHeap
      have nonempty := neat.nonempty region isRegion
      by_cases same : origin = region
      · subst same
        have partEq := (isPart.lower (below origin isRegion regionHeap) nonempty).1
        have otherEq := (isOther.lower (below origin isRegion regionHeap) nonempty).1
        exact absurd (otherEq.trans partEq.symm) different
      · exact meets_narrow (clear.others inside isRegion regionHeap isOrigin same)
          isOther.narrow.1 isOther.narrow.2 isPart.narrow.1
  | @grown count next larger range populated =>
    have newEnd := alignUp_eq clear.user
    have ordered := heap.ordered
    refine withHeap_neat inside neat newAligned heap.aligned (by omega) (by omega) ?_ ?_
    · intro region member regionHeap other otherMember different
      exact clear.others inside member regionHeap otherMember different
    · exact clear.clear

end Qunix.Memory.Vmm.AddressSpace
