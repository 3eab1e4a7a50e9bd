import Qunix.Fs.Tmpfs.FileHistory

/-! # Calls on a tmpfs file that fail

`write` and `truncate` of `TmpInoOps` on a file. A call that finds no frame leaves the
file as it was. A size that wraps when it is rounded up to pages ends in a panic.
-/

namespace Qunix.Fs.Tmpfs

open Foundation Arch Memory TmpFileData Word

inductive CallError
  | enomem
  | einval
deriving DecidableEq

def Answer.result {Value : Type} : Answer Value → Except CallError Value
  | .ok value => .ok value
  | .enomem => .error .enomem

namespace TmpFileData

variable {allocator : FrameAllocator} {file next : TmpFileData}
variable {memory after : MemoryState allocator} {spec : SparseArray UInt8 0}

/-- The end of the range must be a number of 64 bits. -/
def writeCall (self : TmpFileData) (memory : MemoryState allocator) (offset : Nat)
    (data : List UInt8) : Option (Except CallError Nat × TmpFileData × MemoryState allocator) :=
  if modulus ≤ offset + data.length then some (.error .einval, self, memory)
  else (self.write memory offset data).map fun (answer, self, memory) =>
    (answer.result, self, memory)

def truncateCall (self : TmpFileData) (memory : MemoryState allocator) (size : Nat) :
    Option (Except CallError Unit × TmpFileData × MemoryState allocator) :=
  (self.truncate memory size).map fun (answer, self, memory) => (answer.result, self, memory)

/-- A call returns, and after an error the file has its length and its bytes. -/
def Atomic {Value : Type} (self : TmpFileData) (memory : MemoryState allocator) :
    Option (Except CallError Value × TmpFileData × MemoryState allocator) → Prop
  | none => False
  | some (.ok _, _, _) => True
  | some (.error _, next, after) => next.len = self.len ∧
      ∀ offset count, next.read after offset count = self.read memory offset count

theorem Refines.atomic_error {Value : Type} (refines : file.Refines memory spec)
    (nextRefines : next.Refines after spec) (error : CallError) :
    file.Atomic memory (some ((.error error : Except CallError Value), next, after)) := by
  refine ⟨nextRefines.length.symm.trans refines.length, ?_⟩
  intro offset count
  rw [nextRefines.read, refines.read]

/-! ## Sizes that wrap -/

theorem requiredPages_wrap {len : Nat} (small : len < modulus)
    (wraps : modulus ≤ len + 4095) : requiredPages len = 0 := by
  have modulus : modulus = 18446744073709551616 := rfl
  rw [modulus] at small wraps
  rw [requiredPages, add, modulus]
  split
  next => rfl
  next => omega

variable (refines : file.Refines memory spec)

include refines

/-- No page is added, and the first one that is missing panics. -/
theorem Refines.zeroRange_wrap {stop : Nat}
    (small : stop < modulus) (wraps : modulus ≤ stop + 4095) :
    file.zeroRange memory file.len stop = none := by
  have modulus : modulus = 18446744073709551616 := rfl
  have size := refines.toOwns.size
  have covered := refines.covered
  have longer : ¬stop ≤ file.len := by omega
  have ensured : file.ensureLen memory stop = (true, file, memory) := by
    rw [TmpFileData.ensureLen, requiredPages_wrap small wraps, Nat.zero_sub]
    rfl
  rw [TmpFileData.zeroRange, if_neg longer, ensured]
  dsimp only
  cases filled : file.fill (fun _ => 0) file.len (stop - file.len) memory with
  | none => rfl
  | some after =>
    have room := (fill_spec refines.nodup filled).2.1 (by omega)
    omega

/-! ## Writes -/

variable {offset : Nat} {data : List UInt8}

theorem Refines.write_wrap (nonempty : data ≠ []) (small : offset < modulus)
    (wraps : modulus ≤ offset + 4095) :
    file.write memory offset data = none := by
  have modulus : modulus = 18446744073709551616 := rfl
  have size := refines.toOwns.size
  have covered := refines.covered
  rw [TmpFileData.write, if_neg (by simpa using nonempty), if_pos (by omega),
    refines.zeroRange_wrap small wraps]
  rfl

/-- Where only the end of the range would wrap there are never enough pages up to its
start. -/
theorem Refines.write_far (nonempty : data ≠ []) (short : data.length < 2 ^ 63)
    (small : offset + 4095 < modulus) (far : modulus ≤ offset + data.length + 4095) :
    ∃ result, file.write memory offset data = some result := by
  have modulus : modulus = 18446744073709551616 := rfl
  have size := refines.toOwns.size
  have covered := refines.covered
  have longer : file.len < offset := by omega
  rcases refines.zeroRange_returns small with ⟨⟨enough, reached, grown⟩, zeroed⟩
  rw [TmpFileData.write, if_neg (by simpa using nonempty), if_pos longer, zeroed]
  cases enough with
  | false => exact ⟨_, rfl⟩
  | true =>
    exfalso
    rcases refines.zeroRange longer zeroed with ⟨reachedRefines, _, room⟩
    have reachedSize := reachedRefines.toOwns.size
    have pages := room rfl
    omega

theorem Refines.write_atomic_iff (short : data.length < 2 ^ 63) (small : offset < modulus) :
    file.Atomic memory (file.writeCall memory offset data) ↔
      data = [] ∨ modulus ≤ offset + data.length ∨ offset + 4095 < modulus := by
  rw [writeCall]
  by_cases outside : modulus ≤ offset + data.length
  · rw [if_pos outside]
    exact iff_of_true (refines.atomic_error refines .einval) (.inr (.inl outside))
  rw [if_neg outside]
  have returned : ∀ result, file.write memory offset data = some result →
      file.Atomic memory ((file.write memory offset data).map fun (answer, self, memory) =>
        (answer.result, self, memory)) := by
    rintro ⟨answer, next, after⟩ written
    rw [written]
    rcases refines.write short written with ⟨rfl, nextRefines⟩ | ⟨rfl, _⟩
    · exact refines.atomic_error nextRefines .enomem
    · trivial
  constructor
  · intro atomic
    by_contra bad
    have nonempty : data ≠ [] := fun empty => bad (.inl empty)
    have wraps : modulus ≤ offset + 4095 := by omega
    rw [refines.write_wrap nonempty small wraps] at atomic
    exact atomic
  · rintro (empty | overflow | fits)
    · exact returned _ (by rw [empty]; rfl)
    · exact absurd overflow outside
    · by_cases nonempty : data = []
      · exact returned _ (by rw [nonempty]; rfl)
      by_cases far : modulus ≤ offset + data.length + 4095
      · rcases refines.write_far nonempty short fits far with ⟨result, written⟩
        exact returned result written
      · rcases refines.write_returns (lt_of_not_ge far) with ⟨result, written⟩
        exact returned result written

/-! ## Truncations -/

theorem Refines.truncate_atomic_iff {size : Nat}
    (small : size < modulus) :
    file.Atomic memory (file.truncateCall memory size) ↔ size + 4095 < modulus := by
  have modulus : modulus = 18446744073709551616 := rfl
  have bytes := refines.toOwns.size
  have covered := refines.covered
  rw [truncateCall]
  constructor
  · intro atomic
    by_contra wraps
    rw [TmpFileData.truncate, if_pos (by omega),
      refines.zeroRange_wrap small (le_of_not_gt wraps)] at atomic
    exact atomic
  · intro fits
    rcases refines.truncate_returns fits with ⟨⟨answer, next, after⟩, truncated⟩
    rw [truncated]
    rcases refines.truncate truncated with ⟨rfl, nextRefines⟩ | ⟨rfl, _⟩
    · exact refines.atomic_error nextRefines .enomem
    · trivial

end TmpFileData

namespace FileHistory

variable {allocator : FrameAllocator} {history : FileHistory allocator}

/-- The calls on a file, with all their arguments: which of them return, and leave the
file alone when they fail. -/
theorem tmpfs_calls_atomic_iff (reachable : (system allocator).Reachable history) :
    (∀ offset < modulus, ∀ data : List UInt8, data.length < 2 ^ 63 →
      (history.file.Atomic history.memory (history.file.writeCall history.memory offset data) ↔
        data = [] ∨ modulus ≤ offset + data.length ∨ offset + 4095 < modulus)) ∧
    ∀ size < modulus,
      (history.file.Atomic history.memory (history.file.truncateCall history.memory size) ↔
        size + 4095 < modulus) := by
  have refines := (reachable_conforms reachable).refines
  exact ⟨fun offset small data short => refines.write_atomic_iff short small,
    fun size small => refines.truncate_atomic_iff small⟩

theorem tmpfs_calls_atomic_iff_new :
    (sixteenFree.file.Atomic sixteenFree.memory
      (sixteenFree.file.writeCall sixteenFree.memory 5000 [1]) ∧
    sixteenFree.file.Atomic sixteenFree.memory
      (sixteenFree.file.truncateCall sixteenFree.memory 5000)) := by
  have both := tmpfs_calls_atomic_iff (.initial sixteenFree_started)
  exact ⟨(both.1 5000 (by decide) [1] (by decide)).mpr (.inr (.inr (by decide))),
    (both.2 5000 (by decide)).mpr (by decide)⟩

/-- A new file is lengthened to the largest size. -/
theorem truncateCall_panics :
    (system Phys.allocator).Reachable sixteenFree ∧
      sixteenFree.file.truncateCall sixteenFree.memory 18446744073709551615 = none := by
  refine ⟨.initial sixteenFree_started, ?_⟩
  have refines := (reachable_conforms (.initial sixteenFree_started)).refines
  have wraps := refines.zeroRange_wrap (by decide : 18446744073709551615 < modulus) (by decide)
  rw [TmpFileData.truncateCall, TmpFileData.truncate, if_pos (by decide), wraps]
  rfl

end FileHistory

end Qunix.Fs.Tmpfs
