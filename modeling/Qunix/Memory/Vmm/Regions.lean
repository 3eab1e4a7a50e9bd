import Qunix.Memory.Vmm.PageSharing

/-! # Regions and the pages they cover

The bookkeeping of an address space: its regions are page aligned and lie in the
user half, and no page belongs both to a shared and to a private region.
-/

namespace Qunix.Memory.Vmm

open Foundation Arch MemoryState AddressSpace List

def userTop : Nat := userPages * pageSize

theorem pageSize_eq : pageSize = 4096 := rfl

theorem userPages_eq : userPages = 34359738368 := by decide

theorem userTop_eq : userTop = 140737488355328 := by decide

theorem modulus_eq : Word.modulus = 18446744073709551616 := by decide

/-! ## Addresses in the user half -/

theorem alignUp_eq {addr : Nat} (below : addr ≤ userTop) :
    alignUp addr = (addr + 4095) / 4096 * 4096 := by
  rw [alignUp, alignDown, Word.add_eq]
  · rfl
  · rw [userTop_eq] at below
    rw [pageSize_eq, modulus_eq]
    omega

theorem alignUp_le {addr : Nat} (below : addr ≤ userTop) : alignUp addr ≤ userTop := by
  rw [alignUp_eq below]
  rw [userTop_eq] at below ⊢
  omega

theorem alignUp_mono {low high : Nat} (ordered : low ≤ high) (below : high ≤ userTop) :
    alignUp low ≤ alignUp high := by
  rw [alignUp_eq below, alignUp_eq (le_trans ordered below)]
  exact Nat.mul_le_mul_right _ (Nat.div_le_div_right (by omega))

theorem alignUp_aligned {addr : Nat} (below : addr ≤ userTop) : alignUp addr % 4096 = 0 := by
  rw [alignUp_eq below]
  exact Nat.mul_mod_left _ _

theorem alignDown_aligned (addr : Nat) : alignDown addr % 4096 = 0 := Nat.mul_mod_left _ _

theorem alignDown_le (addr : Nat) : alignDown addr ≤ addr := Nat.div_mul_le_self _ _

variable {pages first fewer : Nat}

theorem mapLen_eq (below : pages * 4096 ≤ userTop) :
    Word.mul pages pageSize = pages * 4096 := by
  apply Word.mul_eq
  rw [userTop_eq] at below
  rw [pageSize_eq, modulus_eq]
  omega

theorem pages_range (first : Nat) (ordered : fewer ≤ pages) :
    first + fewer * 4096 + (pages - fewer) * 4096 = first + pages * 4096 := by
  omega

theorem inside_mono (ordered : fewer ≤ pages) (inside : first + pages * 4096 ≤ userTop) :
    first + fewer * 4096 ≤ userTop :=
  le_trans (Nat.add_le_add_left (Nat.mul_le_mul_right 4096 ordered) first) inside

section Range

variable {addr count : Nat} (inside : addr + count * 4096 ≤ userTop)

include inside

variable {index : Nat}

theorem pageAddress_eq (below : index < count) :
    pageAddress addr index = addr + index * 4096 := by
  rw [userTop_eq] at inside
  rw [pageAddress, mapLen_eq (by rw [userTop_eq]; omega), Word.add_eq]
  rw [modulus_eq]
  omega

theorem pageNumber_eq (below : index < count) :
    pageNumber (pageAddress addr index) = addr / 4096 + index := by
  rw [pageAddress_eq inside below, pageNumber, pageSize_eq]
  rw [userTop_eq] at inside
  omega

theorem pageNumber_user {index : Nat} (below : index < count) :
    pageNumber (pageAddress addr index) < userPages := by
  rw [pageNumber_eq inside below, userPages_eq]
  rw [userTop_eq] at inside
  omega

theorem touched_iff (aligned : addr % 4096 = 0) {number : Nat} :
    Touched addr count number ↔
      addr ≤ number * 4096 ∧ number * 4096 < addr + count * 4096 := by
  constructor
  · intro touched
    rcases touched with ⟨index, below, same⟩
    rw [pageNumber_eq inside below] at same
    omega
  · intro bounds
    have below : number - addr / 4096 < count := by omega
    refine ⟨number - addr / 4096, below, ?_⟩
    rw [pageNumber_eq inside below]
    omega

end Range

/-! ## Regions -/

namespace VmaRegion

def Covers (self : VmaRegion) (number : Nat) : Prop :=
  self.start ≤ number * 4096 ∧ number * 4096 < self.stop

/-- A region whose pages a fork leaves writable: `MAP_SHARED`, or a device. -/
def isShared (self : VmaRegion) : Bool := self.kind == .device || self.flags % 2 != 0

structure Placed (region : VmaRegion) : Prop where
  start : region.start % 4096 = 0
  stop : region.stop % 4096 = 0
  ordered : region.start ≤ region.stop
  user : region.stop ≤ userTop

/-- The regions agree in everything but their bounds. -/
structure Alike (left right : VmaRegion) : Prop where
  prot : left.prot = right.prot
  kind : left.kind = right.kind
  flags : left.flags = right.flags
  cow : left.cow = right.cow

theorem Alike.refl (region : VmaRegion) : region.Alike region := ⟨rfl, rfl, rfl, rfl⟩

theorem Alike.trans {first second third : VmaRegion} (left : first.Alike second)
    (right : second.Alike third) : first.Alike third where
  prot := left.prot.trans right.prot
  kind := left.kind.trans right.kind
  flags := left.flags.trans right.flags
  cow := left.cow.trans right.cow

theorem Alike.isShared {left right : VmaRegion} (alike : left.Alike right) :
    left.isShared = right.isShared := by
  rw [VmaRegion.isShared, VmaRegion.isShared, alike.kind, alike.flags]

theorem canCow_eq (region : VmaRegion) :
    canCow region = (region.prot.write && !region.isShared) := by
  rw [canCow, isShared]
  cases region.prot.write <;> cases decide (region.kind = .device) <;>
    simp [bne]

variable {region : VmaRegion} {last : Nat}

theorem contains_iff (placed : region.Placed) {addr : Nat} :
    region.contains addr = true ↔ region.Covers (addr / 4096) := by
  have start := placed.start
  have stop := placed.stop
  rw [contains, Covers, Bool.and_eq_true, decide_eq_true_eq, decide_eq_true_eq]
  omega

theorem meets_eq_false :
    region.meets first last = false ↔ last ≤ region.start ∨ region.stop ≤ first := by
  rw [meets, Bool.and_eq_false_iff, decide_eq_false_iff_not, decide_eq_false_iff_not,
    not_lt, not_lt]

theorem not_covers_of_meets {number : Nat} (apart : region.meets first last = false)
    (lower : first ≤ number * 4096) (upper : number * 4096 < last) : ¬region.Covers number := by
  intro covers
  rw [meets, Bool.and_eq_false_iff, decide_eq_false_iff_not, decide_eq_false_iff_not] at apart
  rcases covers with ⟨start, stop⟩
  omega

end VmaRegion

open VmaRegion

/-! ## Cutting a range out -/

section Cut

variable {first last : Nat} {region part : VmaRegion}

theorem mem_cutRegion : part ∈ cutRegion first last region ↔
    (part = region ∧ (region.stop ≤ first ∨ last ≤ region.start)) ∨
    (¬(region.stop ≤ first ∨ last ≤ region.start) ∧
      (region.start < first ∧ part = { region with stop := first } ∨
        last < region.stop ∧ part = { region with start := last })) := by
  simp only [cutRegion, Bool.or_eq_true, decide_eq_true_eq]
  split
  next apart => simp [apart]
  next overlap =>
    simp only [mem_append, overlap, and_false, false_or, not_false_iff, true_and]
    split <;> split <;> simp [*]

section

variable (member : part ∈ cutRegion first last region)

include member

theorem alike_of_mem_cutRegion :
    part.Alike region := by
  rcases mem_cutRegion.mp member with ⟨rfl, _⟩ | ⟨_, ⟨_, rfl⟩ | ⟨_, rfl⟩⟩
  all_goals exact ⟨rfl, rfl, rfl, rfl⟩

theorem bounds_of_mem_cutRegion
    (firstAligned : first % 4096 = 0) (lastAligned : last % 4096 = 0) (placed : region.Placed) :
    part.Placed ∧ region.start ≤ part.start ∧ part.stop ≤ region.stop := by
  rcases placed with ⟨start, stop, ordered, user⟩
  rcases mem_cutRegion.mp member with ⟨rfl, _⟩ | ⟨overlap, ⟨before, rfl⟩ | ⟨behind, rfl⟩⟩
  · exact ⟨⟨start, stop, ordered, user⟩, le_rfl, le_rfl⟩
  · refine ⟨⟨start, firstAligned, ?_, ?_⟩, le_rfl, ?_⟩ <;> simp only <;> omega
  · refine ⟨⟨lastAligned, stop, ?_, user⟩, ?_, le_rfl⟩ <;> simp only <;> omega

theorem nonempty_of_mem_cutRegion
    (nonempty : region.start < region.stop) : part.start < part.stop := by
  rcases mem_cutRegion.mp member with ⟨rfl, _⟩ | ⟨_, ⟨before, rfl⟩ | ⟨behind, rfl⟩⟩
  · exact nonempty
  · exact before
  · exact behind

end

theorem covers_cutRegion (number : Nat) :
    (∃ part ∈ cutRegion first last region, part.Covers number) ↔
      region.Covers number ∧ ¬(first ≤ number * 4096 ∧ number * 4096 < last) := by
  simp only [mem_cutRegion, Covers]
  constructor
  · rintro ⟨part, ⟨rfl, _⟩ | ⟨_, ⟨_, rfl⟩ | ⟨_, rfl⟩⟩, covered⟩
    · omega
    · simp only at covered
      omega
    · simp only at covered
      omega
  · rintro ⟨covered, outside⟩
    by_cases apart : region.stop ≤ first ∨ last ≤ region.start
    · exact ⟨region, .inl ⟨rfl, apart⟩, covered⟩
    · by_cases left : number * 4096 < first
      · exact ⟨_, .inr ⟨apart, .inl ⟨by omega, rfl⟩⟩, covered.1, left⟩
      · exact ⟨_, .inr ⟨apart, .inr ⟨by omega, rfl⟩⟩, by simp only; omega, covered.2⟩

end Cut

/-! ## Changing the first match of a list -/

section UpdateFirst

variable {Item : Type} {test : Item → Bool} {change : Item → Item} {items : List Item}

theorem mem_updateFirst {item : Item} (member : item ∈ updateFirst test change items) :
    item ∈ items ∨ ∃ old ∈ items, test old = true ∧ item = change old := by
  induction items with
  | nil => cases member
  | cons head rest induction =>
    rw [updateFirst] at member
    split at member
    next matched =>
      rcases List.mem_cons.mp member with same | inRest
      · exact .inr ⟨head, mem_cons_self, matched, same⟩
      · exact .inl (mem_cons_of_mem head inRest)
    next =>
      rcases List.mem_cons.mp member with same | inRest
      · exact .inl (same ▸ mem_cons_self)
      · rcases induction inRest with old | ⟨old, isOld, matched, same⟩
        · exact .inl (mem_cons_of_mem head old)
        · exact .inr ⟨old, mem_cons_of_mem head isOld, matched, same⟩

theorem kept_updateFirst {old : Item} (member : old ∈ items) :
    old ∈ updateFirst test change items ∨
      (test old = true ∧ change old ∈ updateFirst test change items) := by
  induction items with
  | nil => cases member
  | cons head rest induction =>
    rw [updateFirst]
    split
    next matched =>
      rcases List.mem_cons.mp member with same | inRest
      · exact .inr ⟨same ▸ matched, same ▸ mem_cons_self⟩
      · exact .inl (mem_cons_of_mem _ inRest)
    next =>
      rcases List.mem_cons.mp member with same | inRest
      · exact .inl (same ▸ mem_cons_self)
      · exact (induction inRest).imp (mem_cons_of_mem _)
          fun both => ⟨both.1, mem_cons_of_mem _ both.2⟩

theorem exists_updateFirst (found : items.any test = true) :
    ∃ old ∈ items, test old = true ∧ change old ∈ updateFirst test change items := by
  induction items with
  | nil => cases found
  | cons head rest induction =>
    rw [updateFirst]
    split
    next matched => exact ⟨head, mem_cons_self, matched, mem_cons_self⟩
    next unmatched =>
      rw [any_cons, Bool.or_eq_true] at found
      rcases found with matched | found
      · exact absurd matched unmatched
      · rcases induction found with ⟨old, isOld, matched, changed⟩
        exact ⟨old, mem_cons_of_mem head isOld, matched, mem_cons_of_mem _ changed⟩

end UpdateFirst

end Qunix.Memory.Vmm
