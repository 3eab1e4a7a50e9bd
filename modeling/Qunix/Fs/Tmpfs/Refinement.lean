import Qunix.Foundation.SparseArray
import Qunix.Fs.Tmpfs.FileData

/-! # A tmpfs file is a sparse array of bytes

The pages of a file hold its bytes, and zeros past its length. Every call acts on
the sparse array as POSIX says, or leaves it as it was.
-/

namespace Qunix.Fs.Tmpfs.TmpFileData

open Foundation Arch Memory List Option

open Word

variable {allocator : FrameAllocator} {file next : TmpFileData}
variable {memory after : MemoryState allocator} {spec : SparseArray UInt8 0}

def byteOf (self : TmpFileData) (memory : MemoryState allocator) (position : Nat) : UInt8 :=
  memory.byteOf self.frameAt position

structure Owns (file : TmpFileData) (memory : MemoryState allocator) : Prop where
  valid : allocator.Valid memory.frames
  taken : ∀ frame ∈ file.pages, ¬allocator.IsFree memory.frames frame
  bounds : ∀ frame ∈ file.pages, 0 < frame ∧ frame < Phys.maxFrames
  nodup : file.pages.Nodup

structure Refines (file : TmpFileData) (memory : MemoryState allocator)
    (spec : SparseArray UInt8 0) : Prop extends Owns file memory where
  covered : file.len ≤ file.pages.length * 4096
  length : spec.length = file.len
  item : ∀ position, file.byteOf memory position = spec.item position

variable {position len offset frame stop : Nat} {data : List UInt8} {ok : Bool}

theorem byteOf_some (found : file.pages[position / 4096]? = some frame) :
    file.byteOf memory position = memory.bytes frame (position % 4096) :=
  MemoryState.byteOf_some found

theorem byteOf_none (absent : file.pages[position / 4096]? = none) :
    file.byteOf memory position = 0 :=
  MemoryState.byteOf_none absent

theorem Owns.few (owns : file.Owns memory) : file.pages.length ≤ Phys.maxFrames := by
  have inside : file.pages ⊆ List.range Phys.maxFrames := by
    intro frame member
    exact mem_range.mpr (owns.bounds frame member).2
  have bound := (owns.nodup.subperm inside).length_le
  rwa [length_range] at bound

theorem Owns.of_frames (owns : file.Owns memory) (frames : after.frames = memory.frames)
    (pages : next.pages = file.pages) : next.Owns after :=
  ⟨frames ▸ owns.valid, frames ▸ pages ▸ owns.taken, pages ▸ owns.bounds, pages ▸ owns.nodup⟩

/-! ## More pages -/

theorem Refines.addPage (refines : file.Refines memory spec)
    (allocated : memory.allocFrame = (some frame, after)) :
    ({ file with pages := file.pages ++ [frame] } : TmpFileData).Refines
      (after.fillFrame frame fun _ => 0) spec := by
  rw [MemoryState.allocFrame, Prod.mk.injEq] at allocated
  rcases allocated with ⟨answer, isAfter⟩
  subst isAfter
  rcases allocator.alloc_some refines.valid (Prod.ext answer rfl) with ⟨valid, wasFree, isFree⟩
  have fresh : frame ∉ file.pages := fun member => refines.taken frame member wasFree
  refine ⟨⟨valid, ?_, ?_, ?_⟩, ?_, refines.length, ?_⟩
  · intro other member free
    rcases (isFree other).mp free with ⟨free, different⟩
    rcases mem_append.mp member with old | new
    · exact refines.taken other old free
    · exact different (mem_singleton.mp new)
  · exact forall_mem_append.mpr ⟨refines.bounds,
      forall_mem_singleton.mpr (allocator.free_bounds refines.valid wasFree)⟩
  · exact concat_eq_append ▸ refines.nodup.concat fresh
  · change file.len ≤ (file.pages ++ [frame]).length * 4096
    rw [length_append, add_mul]
    exact Nat.le_add_right_of_le refines.covered
  · intro position
    rw [← refines.item position]
    rcases lt_trichotomy (position / 4096) file.pages.length with old | last | past
    · have found := getElem?_eq_getElem old
      have different : file.pages[position / 4096] ≠ frame :=
        fun same => fresh (same ▸ getElem_mem old)
      rw [byteOf_some found, byteOf_some (by rw [getElem?_append_left old]; exact found)]
      simp only [MemoryState.fillFrame, Function.update_of_ne different]
    · rw [byteOf_none (getElem?_eq_none (le_of_eq last.symm)),
        byteOf_some (by rw [last, getElem?_concat_length])]
      simp only [MemoryState.fillFrame, Function.update_self]
    · rw [byteOf_none (getElem?_eq_none (le_of_lt past)), byteOf_none]
      apply getElem?_eq_none
      rw [length_append]
      exact past

theorem Refines.addPages (count : Nat) :
    ∀ {file : TmpFileData} {memory : MemoryState allocator}, file.Refines memory spec →
    ∀ {ok : Bool} {next : TmpFileData} {after : MemoryState allocator},
      file.addPages memory count = (ok, next, after) →
      next.Refines after spec ∧ next.len = file.len ∧
      (ok = true → next.pages.length = file.pages.length + count) := by
  induction count with
  | zero =>
    intro file memory refines ok next after added
    cases added
    exact ⟨refines, rfl, fun _ => rfl⟩
  | succ count induction =>
    intro file memory refines ok next after added
    rw [TmpFileData.addPages] at added
    rcases allocated : memory.allocFrame with ⟨answer, reached⟩
    rw [allocated] at added
    cases answer with
    | none =>
      cases added
      rw [Prod.mk.injEq] at allocated
      rcases allocated with ⟨answer, isReached⟩
      subst isReached
      rcases allocator.alloc_none refines.valid (Prod.ext answer rfl) with ⟨valid, isFree⟩
      refine ⟨⟨⟨valid, ?_, refines.bounds, refines.nodup⟩, refines.covered, refines.length,
        refines.item⟩, rfl, fun impossible => by cases impossible⟩
      intro frame member free
      exact refines.taken frame member ((isFree frame).mp free)
    | some frame =>
      rcases induction (refines.addPage allocated) added with ⟨refinesNext, len, pages⟩
      refine ⟨refinesNext, len, ?_⟩
      intro isOk
      rw [pages isOk, length_append, length_singleton]
      omega

theorem Refines.ensureLen (refines : file.Refines memory spec)
    (ensured : file.ensureLen memory len = (ok, next, after)) :
    next.Refines after spec ∧ next.len = file.len ∧
      (ok = true → requiredPages len ≤ next.pages.length) := by
  rcases refines.addPages _ ensured with ⟨refinesNext, sameLen, pages⟩
  refine ⟨refinesNext, sameLen, ?_⟩
  intro isOk
  rw [pages isOk]
  omega

/-! ## Writing page by page -/

theorem frameAt_paged : Paged file.frameAt := by
  intro left right same
  rw [frameAt, frameAt, same]

theorem frameAt_unaliased (nodup : file.pages.Nodup) {count : Nat}
    (present : ∀ index, position ≤ index → index < position + count → file.frameAt index ≠ none)
    (index : Nat) : MemoryState.Unaliased file.frameAt position count index := by
  intro other low high sameFrame sameOffset
  rcases Option.ne_none_iff_exists'.mp (present other low high) with ⟨frame, found⟩
  have bound := (List.getElem?_eq_some_iff.mp found).1
  have samePage := (getElem?_inj bound nodup).mp sameFrame
  omega

theorem fill_spec {source : Nat → UInt8} (nodup : file.pages.Nodup) {remaining : Nat}
    (filled : file.fill source position remaining memory = some after) :
    after.frames = memory.frames ∧
      (0 < remaining → position + remaining ≤ file.pages.length * 4096) ∧
      ∀ index, file.byteOf after index =
        if position ≤ index ∧ index < position + remaining then source index
        else file.byteOf memory index := by
  rw [fill] at filled
  rcases copied : MemoryState.copyIn file.frameAt source remaining position remaining memory with
    ⟨ok, reached⟩
  rw [copied] at filled
  cases ok with
  | false => cases filled
  | true =>
    cases filled
    rcases MemoryState.copyIn_spec frameAt_paged _ le_rfl copied with
      ⟨same, present, bytes⟩
    refine ⟨same.1, ?_, ?_⟩
    · intro positive
      have last := present (position + remaining - 1) (by omega) (by omega)
      rw [frameAt, ne_eq, List.getElem?_eq_none_iff] at last
      omega
    · intro index
      exact bytes index (frameAt_unaliased nodup present index)

theorem frameAt_present {position count : Nat}
    (inside : position + count ≤ file.pages.length * 4096) :
    ∀ index, position ≤ index → index < position + count → file.frameAt index ≠ none := by
  intro index _ high
  rw [frameAt, ne_eq, List.getElem?_eq_none_iff]
  omega

theorem fill_returns {source : Nat → UInt8} {position remaining : Nat}
    (inside : position + remaining ≤ file.pages.length * 4096) :
    ∃ after, file.fill source position remaining memory = some after := by
  have done := @MemoryState.copyIn_returns _ file.frameAt source remaining position remaining memory
    (frameAt_present inside)
  rw [fill]
  rcases copied : MemoryState.copyIn file.frameAt source remaining position remaining memory with
    ⟨ok, reached⟩
  rw [copied] at done
  subst done
  exact ⟨reached, rfl⟩

theorem Refines.zeroRange (refines : file.Refines memory spec) (longer : file.len < stop)
    (zeroed : file.zeroRange memory file.len stop = some (ok, next, after)) :
    next.Refines after spec ∧ next.len = file.len ∧
      (ok = true → stop ≤ next.pages.length * 4096) := by
  rw [TmpFileData.zeroRange, if_neg (not_le_of_gt longer)] at zeroed
  rcases ensured : file.ensureLen memory stop with ⟨enough, reached, grown⟩
  rcases refines.ensureLen ensured with ⟨refinesReached, sameLen, _⟩
  rw [ensured] at zeroed
  cases enough with
  | false =>
    cases zeroed
    exact ⟨refinesReached, sameLen, fun impossible => by cases impossible⟩
  | true =>
    simp only [map_eq_some_iff, Prod.mk.injEq] at zeroed
    rcases zeroed with ⟨blanked, filled, _, sameFile, sameMemory⟩
    subst sameFile sameMemory
    rcases fill_spec refinesReached.nodup filled with ⟨frames, reaches, bytes⟩
    refine ⟨⟨refinesReached.of_frames frames rfl, refinesReached.covered, refinesReached.length,
      ?_⟩, sameLen, fun _ => by omega⟩
    intro position
    rw [bytes]
    split
    next range =>
      rw [spec.blank position (by rw [refines.length]; exact range.1)]
    next => exact refinesReached.item position

/-! ## Calls -/

theorem le_requiredPages {len : Nat} (small : len + 4095 < modulus) :
    len ≤ requiredPages len * 4096 ∧ requiredPages len * 4096 < len + 4096 := by
  rw [requiredPages]
  split
  next zero => omega
  rw [add_eq small]
  omega

theorem Owns.size (owns : file.Owns memory) : file.pages.length * 4096 ≤ 4294967296 := by
  have few := owns.few
  have frames : Phys.maxFrames = 1048576 := by decide
  omega

section

variable (refines : file.Refines memory spec)
include refines

theorem Refines.fillData (nonempty : data.isEmpty = false)
    (isStop : stop = offset + data.length) (room : stop ≤ file.pages.length * 4096)
    (filled : file.fill (fun position => data.getD (position - offset) 0) offset data.length
      memory = some after) :
    ({ file with len := max file.len stop } : TmpFileData).Refines after
      (spec.write offset data) := by
  rcases fill_spec refines.nodup filled with ⟨frames, _, bytes⟩
  refine ⟨refines.of_frames frames rfl, Nat.max_le.mpr ⟨refines.covered, room⟩, ?_, ?_⟩
  · change (if data.isEmpty then spec.length else max spec.length (offset + data.length)) =
      max file.len stop
    rw [nonempty, refines.length, isStop]
    rfl
  · intro position
    change file.byteOf after position = if offset ≤ position ∧ position < offset + data.length
      then data.getD (position - offset) 0 else spec.item position
    rw [bytes position, refines.item position]

theorem Refines.writeAt {answer : Answer Nat}
    (small : data.length < 2 ^ 63) (nonempty : data.isEmpty = false)
    (inside : offset ≤ file.pages.length * 4096)
    (written : file.writeAt memory offset data = some (answer, next, after)) :
    (answer = .enomem ∧ next.Refines after spec) ∨
      (answer = .ok data.length ∧ next.Refines after (spec.write offset data)) := by
  have size := refines.size
  have modulus : modulus = 18446744073709551616 := by decide
  have stop : add offset data.length = offset + data.length :=
    add_eq (by omega)
  rw [TmpFileData.writeAt, stop] at written
  rcases ensured : file.ensureLen memory (offset + data.length) with ⟨enough, reached, grown⟩
  rcases refines.ensureLen ensured with ⟨refinesReached, _, pages⟩
  rw [ensured] at written
  cases enough with
  | false =>
    cases written
    exact .inl ⟨rfl, refinesReached⟩
  | true =>
    simp only [map_eq_some_iff, Prod.mk.injEq] at written
    rcases written with ⟨filledMemory, filled, sameAnswer, sameFile, sameMemory⟩
    subst sameFile sameMemory
    have room := (@le_requiredPages (offset + data.length) (by omega)).1
    have count := Nat.mul_le_mul_right 4096 (pages rfl)
    exact .inr ⟨sameAnswer.symm,
      refinesReached.fillData nonempty rfl (le_trans room count) filled⟩

theorem Refines.write {offset : Nat} {data : List UInt8}
    {answer : Answer Nat} (small : data.length < 2 ^ 63)
    (written : file.write memory offset data = some (answer, next, after)) :
    (answer = .enomem ∧ next.Refines after spec) ∨
      (answer = .ok data.length ∧ next.Refines after (spec.write offset data)) := by
  rw [TmpFileData.write] at written
  cases nonempty : data.isEmpty with
  | true =>
    rw [nonempty] at written
    cases written
    rw [List.isEmpty_iff] at nonempty
    subst nonempty
    refine .inr ⟨rfl, ?_⟩
    have same : spec.write offset [] = spec :=
      SparseArray.ext rfl (funext fun index => if_neg fun inside =>
        Nat.not_lt.mpr inside.1 inside.2)
    rw [same]
    exact refines
  | false =>
    simp only [nonempty, Bool.false_eq_true, if_false] at written
    by_cases past : file.len < offset
    · rw [if_pos past, bind_eq_some_iff] at written
      rcases written with ⟨⟨ok, reached, blanked⟩, zeroed, written⟩
      rcases refines.zeroRange past zeroed with ⟨refinesReached, _, reaches⟩
      cases ok with
      | false =>
        cases written
        exact .inl ⟨rfl, refinesReached⟩
      | true => exact refinesReached.writeAt small nonempty (reaches rfl) written
    · rw [if_neg past] at written
      exact refines.writeAt small nonempty
        (le_trans (le_of_not_gt past) refines.covered) written

end

/-! ## Truncation -/

theorem Owns.dropLast (owns : file.Owns memory) (last : file.pages.getLast? = some frame) :
    ({ file with pages := file.pages.dropLast } : TmpFileData).Owns (memory.freeFrame frame) := by
  have pages : file.pages = file.pages.dropLast ++ [frame] :=
    (dropLast_append_getLast? frame last).symm
  have member : frame ∈ file.pages := mem_of_getLast? last
  rcases owns.bounds frame member with ⟨positive, below⟩
  rcases @allocator.free_taken _ memory.cpu _ owns.valid positive below (owns.taken frame member)
    with ⟨valid, isFree⟩
  have nodup := owns.nodup
  rw [pages, nodup_append] at nodup
  refine ⟨valid, ?_, ?_, nodup.1⟩
  · intro other kept free
    rcases (isFree other).mp free with wasFree | same
    · exact owns.taken other (mem_of_mem_dropLast kept) wasFree
    · exact nodup.2.2 other kept frame (mem_singleton_self frame) same
  · intro other kept
    exact owns.bounds other (mem_of_mem_dropLast kept)

theorem Owns.dropPages (count : Nat) :
    ∀ {file : TmpFileData} {memory : MemoryState allocator}, file.Owns memory →
      (file.dropPages memory count).1.Owns (file.dropPages memory count).2 ∧
      (file.dropPages memory count).2.bytes = memory.bytes ∧
      (file.dropPages memory count).1 =
        { file with pages := file.pages.take (file.pages.length - count) } := by
  induction count with
  | zero =>
    intro file memory owns
    refine ⟨owns, rfl, ?_⟩
    rw [Nat.sub_zero, take_length]
    rfl
  | succ count induction =>
    intro file memory owns
    rw [TmpFileData.dropPages]
    cases last : file.pages.getLast? with
    | none =>
      rw [getLast?_eq_none_iff] at last
      refine ⟨owns, rfl, ?_⟩
      rw [last, take_nil, ← last]
    | some frame =>
      rcases induction (owns.dropLast last) with ⟨dropped, bytes, pages⟩
      refine ⟨dropped, bytes, ?_⟩
      rw [pages]
      simp only [dropLast_eq_take, take_take, length_take]
      congr 2
      omega

theorem byteOf_take (count position : Nat) :
    ({ file with pages := file.pages.take count } : TmpFileData).byteOf memory position =
      if position / 4096 < count then file.byteOf memory position else 0 := by
  have lookup := @List.getElem?_take _ file.pages count (position / 4096)
  by_cases kept : position / 4096 < count
  · rw [if_pos kept] at lookup
    rw [if_pos kept, byteOf, MemoryState.byteOf, frameAt, lookup]
    rfl
  · rw [if_neg kept] at lookup
    rw [if_neg kept, byteOf_none lookup]

theorem zeroTail_spec (nodup : file.pages.Nodup) (small : file.len + 4095 < modulus)
    (count : file.pages.length = requiredPages file.len) :
    ∃ after, file.zeroTail memory = some after ∧ after.frames = memory.frames ∧
      ∀ index, file.byteOf after index =
        if index < file.len then file.byteOf memory index else 0 := by
  have enough := le_requiredPages small
  have beyond : ∀ index, requiredPages file.len ≤ index / 4096 → file.byteOf memory index = 0 := by
    intro index past
    exact byteOf_none (getElem?_eq_none (count ▸ past))
  rw [zeroTail]
  split
  next tail =>
    have page : requiredPages file.len - 1 = file.len / 4096 := by omega
    have found : file.pages[file.len / 4096]? = some file.pages[file.len / 4096] :=
      getElem?_eq_getElem (by omega)
    rw [page, found]
    refine ⟨_, rfl, rfl, ?_⟩
    have sameChunk : memory.fillChunk file.pages[file.len / 4096] (file.len % 4096)
        (4096 - file.len % 4096) (fun _ => 0) =
        memory.fillChunk file.pages[file.len / 4096] file.len (4096 - file.len % 4096)
          fun _ => 0 := by
      simp only [MemoryState.fillChunk, Nat.mod_mod]
    intro index
    have present := @frameAt_present file file.len (4096 - file.len % 4096) (by omega)
    rw [sameChunk, byteOf, MemoryState.fillChunk_byteOf frameAt_paged found le_rfl
      (frameAt_unaliased nodup present index)]
    by_cases before : index < file.len
    · rw [if_pos before, if_neg (by omega)]
      rfl
    · rw [if_neg before]
      split
      next => rfl
      next past => exact beyond index (by omega)
  next whole =>
    refine ⟨memory, rfl, rfl, ?_⟩
    intro index
    split
    next => rfl
    next past => exact beyond index (by omega)

variable (refines : file.Refines memory spec)

include refines

theorem Refines.shrink (shorter : len ≤ file.len) :
    ∃ next after, file.truncate memory len = some (.ok (), next, after) ∧
      next.Refines after (spec.truncate len) := by
  have size := refines.size
  have covered := refines.covered
  have modulus : modulus = 18446744073709551616 := by decide
  have enough := @le_requiredPages len (by omega)
  have owns : ({ file with len := len } : TmpFileData).Owns memory := refines.of_frames rfl rfl
  rcases owns.dropPages (file.pages.length - requiredPages len) with ⟨dropped, bytes, pages⟩
  rw [truncate, if_neg (Nat.not_lt.mpr shorter)]
  simp only
  generalize TmpFileData.dropPages { file with len := len } memory
    (file.pages.length - requiredPages len) = result at *
  have kept : file.pages.length - (file.pages.length - requiredPages len) = requiredPages len := by
    omega
  rw [kept] at pages
  have sameLen : result.1.len = len := by rw [pages]
  have count : result.1.pages.length = requiredPages result.1.len := by
    rw [pages]
    change (file.pages.take (requiredPages len)).length = requiredPages len
    rw [length_take]
    omega
  rcases zeroTail_spec dropped.nodup (by omega) count with ⟨after, zeroed, frames, tail⟩
  refine ⟨result.1, after, by rw [zeroed]; rfl, dropped.of_frames frames rfl, ?_, sameLen.symm, ?_⟩
  · rw [count, sameLen]
    exact enough.1
  · intro position
    change result.1.byteOf after position = if position < len then spec.item position else 0
    rw [tail, sameLen]
    split
    next inside =>
      rw [← refines.item, pages, byteOf_take, if_pos (by omega)]
      simp only [byteOf, MemoryState.byteOf, bytes]
      rfl
    next => rfl

theorem Refines.truncate {answer : Answer Unit}
    (truncated : file.truncate memory len = some (answer, next, after)) :
    (answer = .enomem ∧ next.Refines after spec) ∨
      (answer = .ok () ∧ next.Refines after (spec.truncate len)) := by
  by_cases longer : file.len < len
  · rw [TmpFileData.truncate, if_pos longer, map_eq_some_iff] at truncated
    rcases truncated with ⟨⟨ok, reached, blanked⟩, zeroed, result⟩
    rcases refines.zeroRange longer zeroed with ⟨refinesReached, _, reaches⟩
    cases ok with
    | false =>
      cases result
      exact .inl ⟨rfl, refinesReached⟩
    | true =>
      cases result
      refine .inr ⟨rfl, refinesReached.of_frames rfl rfl, reaches rfl, rfl, ?_⟩
      intro position
      change reached.byteOf after position = if position < len then spec.item position else 0
      rw [refinesReached.item]
      split
      next => rfl
      next past => exact spec.blank position (by rw [refines.length]; omega)
  · rcases refines.shrink (le_of_not_gt longer) with ⟨shrunk, reached, result, refinesShrunk⟩
    rw [result] at truncated
    cases truncated
    exact .inr ⟨rfl, refinesShrunk⟩

/-! ## No call panics while rounding up does not wrap -/

theorem Refines.zeroRange_returns {stop : Nat}
    (small : stop + 4095 < modulus) :
    ∃ result, file.zeroRange memory file.len stop = some result := by
  rw [TmpFileData.zeroRange]
  split
  next => exact ⟨_, rfl⟩
  next longer =>
  rcases ensured : file.ensureLen memory stop with ⟨enough, reached, grown⟩
  rcases refines.ensureLen ensured with ⟨refinesReached, _, pages⟩
  cases enough with
  | false => exact ⟨_, rfl⟩
  | true =>
    have room := (le_requiredPages small).1
    have count := Nat.mul_le_mul_right 4096 (pages rfl)
    rcases @fill_returns _ reached grown (fun _ => 0) file.len (stop - file.len) (by omega) with
      ⟨after, filled⟩
    simp only [filled]
    exact ⟨_, rfl⟩

theorem Refines.truncate_returns (small : len + 4095 < modulus) :
    ∃ result, file.truncate memory len = some result := by
  by_cases longer : file.len < len
  · rcases refines.zeroRange_returns small with ⟨result, zeroed⟩
    rw [TmpFileData.truncate, if_pos longer, zeroed]
    exact ⟨_, rfl⟩
  · rcases refines.shrink (le_of_not_gt longer) with ⟨_, _, result, _⟩
    exact ⟨_, result⟩

theorem Refines.writeAt_returns (small : offset + data.length + 4095 < modulus) :
    ∃ result, file.writeAt memory offset data = some result := by
  have stop : add offset data.length = offset + data.length :=
    add_eq (by omega)
  rcases ensured : file.ensureLen memory (offset + data.length) with ⟨enough, reached, grown⟩
  rcases refines.ensureLen ensured with ⟨_, _, pages⟩
  rw [TmpFileData.writeAt, stop, ensured]
  cases enough with
  | false => exact ⟨_, rfl⟩
  | true =>
    have room := (le_requiredPages small).1
    have count := Nat.mul_le_mul_right 4096 (pages rfl)
    rcases @fill_returns _ reached grown (fun position => data.getD (position - offset) 0) offset
      data.length (le_trans room count) with ⟨after, filled⟩
    simp only [filled]
    exact ⟨_, rfl⟩

theorem Refines.write_returns (small : offset + data.length + 4095 < modulus) :
    ∃ result, file.write memory offset data = some result := by
  rw [TmpFileData.write]
  split
  next => exact ⟨_, rfl⟩
  split
  next past =>
    rcases @Refines.zeroRange_returns _ _ _ _ refines offset (by omega) with
      ⟨⟨ok, reached, blanked⟩, zeroed⟩
    rw [zeroed]
    cases ok with
    | false => exact ⟨_, rfl⟩
    | true => exact (refines.zeroRange past zeroed).1.writeAt_returns small
  next => exact refines.writeAt_returns small

/-! ## Reading -/

theorem Refines.read (offset count : Nat) :
    file.read memory offset count = some (spec.read offset count) := by
  have covered := refines.covered
  rw [TmpFileData.read, SparseArray.read, refines.length]
  split
  next past =>
    rw [Nat.sub_eq_zero_of_le past, Nat.min_zero]
    rfl
  next =>
    rcases @MemoryState.copyOut_returns _ memory file.frameAt (min count (file.len - offset)) offset
      (min count (file.len - offset)) (frameAt_present (by omega)) with ⟨bytes, copied⟩
    rw [copied, MemoryState.copyOut_spec frameAt_paged _ le_rfl copied]
    apply congrArg
    apply map_congr_left
    intro index _
    exact refines.item (offset + index)

end Qunix.Fs.Tmpfs.TmpFileData
