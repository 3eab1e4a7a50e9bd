import Mathlib.Data.List.GetD
import Mathlib.Data.List.Nodup
import Qunix.Elf.InitialStack

/-! # The layout of the initial stack

Every push goes below what is on the stack already, so what has been pushed stays.
-/

namespace Qunix.Elf

open Foundation Bytes Function List Word

/-- The frames of the stack pages, the lowest page first. -/
structure StackArea where
  frames : List Nat
  count : frames.length = userStackSize / 4096
  /-- No frame is handed out twice. -/
  distinct : frames.Nodup

namespace StackArea

variable (area : StackArea)

def view (bytes : PhysBytes) (vaddr : Nat) : UInt8 :=
  match area.frames[(vaddr - stackBottom) / 4096]? with
  | some frame => bytes frame (vaddr % 4096)
  | none => 0

def word (bytes : PhysBytes) (vaddr : Nat) : Nat :=
  readLe64 ((List.range 8).map fun index => area.view bytes (vaddr + index)) 0

def Holds (bytes : PhysBytes) (vaddr : Nat) (data : List UInt8) : Prop :=
  ∀ index, index < data.length → area.view bytes (vaddr + index) = data.getD index 0

/-! ## Writes -/

theorem bottom_eq : stackBottom = 140737479901184 := by decide

theorem top_eq : userStackTop = 140737488289792 := by decide

theorem size_eq : stackBottom + userStackSize = userStackTop := by decide

def Inside (vaddr : Nat) : Prop := stackBottom ≤ vaddr ∧ vaddr < userStackTop

variable {vaddr frame target sp depth : Nat} {strings : List (List UInt8)} {addresses : List Nat}

theorem inside_iff :
    Inside vaddr ↔ 140737479901184 ≤ vaddr ∧ vaddr < 140737488289792 := by
  rw [Inside, bottom_eq, top_eq]

theorem sub_inside (inside : Inside vaddr) :
    sub vaddr stackBottom = vaddr - stackBottom := by
  apply sub_eq inside.1
  rw [inside_iff] at inside
  rw [modulus]
  omega

theorem add_inside {count : Nat} (inside : vaddr + count ≤ userStackTop) :
    add vaddr count = vaddr + count := by
  apply add_eq
  rw [top_eq] at inside
  rw [modulus]
  omega

theorem frame_exists (inside : Inside vaddr) :
    ∃ frame, area.frames[(vaddr - stackBottom) / 4096]? = some frame := by
  have bound : (vaddr - stackBottom) / 4096 < area.frames.length := by
    rw [area.count]
    rw [inside_iff] at inside
    rw [bottom_eq]
    change _ < 2048
    omega
  exact ⟨area.frames[(vaddr - stackBottom) / 4096], getElem?_eq_getElem bound⟩

theorem same_page {left right : Nat}
    (isLeft : area.frames[(left - stackBottom) / 4096]? = some frame)
    (isRight : area.frames[(right - stackBottom) / 4096]? = some frame) :
    (left - stackBottom) / 4096 = (right - stackBottom) / 4096 := by
  rcases List.getElem?_eq_some_iff.mp isLeft with ⟨leftBound, leftIs⟩
  rcases List.getElem?_eq_some_iff.mp isRight with ⟨rightBound, rightIs⟩
  exact (List.Nodup.getElem_inj_iff area.distinct).mp (leftIs.trans rightIs.symm)

theorem view_poke {bytes : PhysBytes} {byte : UInt8} (isTarget : Inside target)
    (inside : Inside vaddr) (found : area.frames[(target - stackBottom) / 4096]? = some frame) :
    area.view (poke bytes frame (target % 4096) byte) vaddr =
      if vaddr = target then byte else area.view bytes vaddr := by
  rcases area.frame_exists inside with ⟨other, here⟩
  have small : target % 4096 < 4096 := Nat.mod_lt _ (by decide)
  rw [poke, Nat.div_eq_of_lt small, Nat.mod_eq_of_lt small, add_zero, view, view, here]
  change Function.update bytes frame _ other (vaddr % 4096) = _
  by_cases sameFrame : other = frame
  · rw [sameFrame] at here ⊢
    have page := area.same_page here found
    rw [inside_iff] at isTarget inside
    rw [bottom_eq] at page
    rw [update_self, update_apply]
    by_cases same : vaddr = target
    · rw [if_pos same, if_pos (by rw [same])]
    · rw [if_neg same, if_neg (by omega)]
  · rw [update_of_ne sameFrame, if_neg]
    intro same
    rw [same, found] at here
    exact sameFrame (Option.some.inj here).symm

theorem view_writeBytesPhys (data : List UInt8) :
    ∀ {target : Nat} {bytes : PhysBytes}, stackBottom ≤ target →
      target + data.length ≤ userStackTop → ∀ {vaddr}, Inside vaddr →
      area.view (writeBytesPhys area.frames stackBottom target data bytes) vaddr =
        if target ≤ vaddr ∧ vaddr < target + data.length then data.getD (vaddr - target) 0
        else area.view bytes vaddr := by
  induction data with
  | nil =>
    intro target bytes _ _ vaddr _
    rw [writeBytesPhys, if_neg]
    rw [length_nil]
    omega
  | cons byte rest induction =>
    intro target bytes low high vaddr inside
    rw [length_cons] at high ⊢
    have isTarget : Inside target := ⟨low, by omega⟩
    rcases area.frame_exists isTarget with ⟨frame, found⟩
    have next : add target 1 = target + 1 := add_inside (by omega)
    rw [writeBytesPhys, sub_inside isTarget, found, next,
      induction (by omega) (by omega) inside]
    rw [area.view_poke isTarget inside found]
    by_cases first : vaddr = target
    · rw [if_neg (by omega), if_pos first, if_pos (by omega), first, Nat.sub_self, getD_cons_zero]
    rw [if_neg first]
    by_cases later : target + 1 ≤ vaddr ∧ vaddr < target + 1 + rest.length
    · have position : vaddr - target = (vaddr - (target + 1)) + 1 := by omega
      rw [if_pos later, if_pos (by omega), position, getD_cons_succ]
    · rw [if_neg later, if_neg (by omega)]

theorem pokeAll_eq (data : List UInt8) :
    ∀ {target frame : Nat} {bytes : PhysBytes}, stackBottom ≤ target →
      target + data.length ≤ userStackTop → target % 4096 + data.length ≤ 4096 →
      area.frames[(target - stackBottom) / 4096]? = some frame →
      pokeAll frame (target % 4096) data bytes =
        writeBytesPhys area.frames stackBottom target data bytes := by
  induction data with
  | nil =>
    intro target frame bytes _ _ _ _
    rfl
  | cons byte rest induction =>
    intro target frame bytes low high fits found
    rw [length_cons] at high fits
    have isTarget : Inside target := ⟨low, by omega⟩
    have next : add target 1 = target + 1 := add_inside (by omega)
    rw [pokeAll, writeBytesPhys, sub_inside isTarget, found, next]
    cases rest with
    | nil => rfl
    | cons second others =>
      rw [length_cons] at high fits induction
      have offset : target % 4096 + 1 = (target + 1) % 4096 := by omega
      have page : (target - stackBottom) / 4096 = (target + 1 - stackBottom) / 4096 := by
        rw [bottom_eq] at low ⊢
        omega
      rw [offset]
      apply induction
      · omega
      · omega
      · omega
      · rw [← page]
        exact found

variable {value : Nat} {data : List UInt8}

/-- A word on the stack does not reach into the next page. -/
theorem writePhys_eq {bytes : PhysBytes} (low : stackBottom ≤ target)
    (high : target + 8 ≤ userStackTop) (aligned : target % 8 = 0) :
    writePhys area.frames stackBottom target value bytes =
      writeBytesPhys area.frames stackBottom target (le64 value) bytes := by
  have isTarget : Inside target := ⟨low, by omega⟩
  rcases area.frame_exists isTarget with ⟨frame, found⟩
  rw [writePhys, sub_inside isTarget, found]
  apply area.pokeAll_eq (le64 value) low high _ found
  change _ + 8 ≤ 4096
  omega

/-! ## Pushes -/

/-- A state further down, where what was on the stack is still there. -/
structure Below (state next : StackState) (count : Nat) : Prop where
  moved : next.sp + count = state.sp
  low : stackBottom ≤ next.sp
  keeps : ∀ vaddr, state.sp ≤ vaddr → vaddr < userStackTop →
    area.view next.bytes vaddr = area.view state.bytes vaddr

namespace Below

variable {area} {state next last : StackState} {count more : Nat}

theorem trans (first : area.Below state next count) (second : area.Below next last more) :
    area.Below state last (count + more) where
  moved := by
    have firstMoved := first.moved
    have secondMoved := second.moved
    omega
  low := second.low
  keeps := by
    intro vaddr above inside
    have firstMoved := first.moved
    rw [second.keeps vaddr (by omega) inside, first.keeps vaddr above inside]

theorem holds (below : area.Below state next count) {vaddr : Nat} (above : state.sp ≤ vaddr)
    (inside : vaddr + data.length ≤ userStackTop) (holds : area.Holds state.bytes vaddr data) :
    area.Holds next.bytes vaddr data := by
  intro index bound
  rw [below.keeps (vaddr + index) (by omega) (by omega)]
  exact holds index bound

theorem skip {sp : Nat} (low : stackBottom ≤ sp) (moved : sp + count = state.sp) :
    area.Below state ⟨sp, state.bytes⟩ count :=
  ⟨moved, low, fun _ _ _ => rfl⟩

theorem write {target : Nat} {data : List UInt8} (high : state.sp ≤ userStackTop)
    (low : stackBottom ≤ target) (fits : target + data.length ≤ state.sp)
    (moved : target + count = state.sp) :
    area.Below state
      ⟨target, writeBytesPhys area.frames stackBottom target data state.bytes⟩ count where
  moved := moved
  low := low
  keeps := by
    intro vaddr above inside
    have isInside : Inside vaddr := ⟨by omega, inside⟩
    rw [area.view_writeBytesPhys data low (by omega) isInside, if_neg]
    omega

end Below

theorem holds_write {bytes : PhysBytes} (low : stackBottom ≤ target)
    (high : target + data.length ≤ userStackTop) :
    area.Holds (writeBytesPhys area.frames stackBottom target data bytes) target data := by
  intro index bound
  have inside : Inside (target + index) := ⟨by omega, by omega⟩
  rw [area.view_writeBytesPhys data low high inside, if_pos (by omega), Nat.add_sub_cancel_left]

theorem word_of_holds {bytes : PhysBytes} (small : value < 2 ^ 64)
    (holds : area.Holds bytes vaddr (le64 value)) : area.word bytes vaddr = value := by
  have whole : (List.range 8).map (fun index => area.view bytes (vaddr + index)) =
      le64 value := by
    apply ext_getElem
    · rfl
    · intro index _ bound
      rw [getElem_map, getElem_range, holds index bound]
      exact getD_eq_getElem _ _ bound
  rw [word, whole]
  exact readLe64_le64 small []

def CString (bytes : PhysBytes) (pointer : Nat) (string : List UInt8) : Prop :=
  area.Holds bytes pointer (string ++ [0])

theorem sub_sp {count : Nat} (high : sp ≤ userStackTop) (low : count ≤ sp) :
    sub sp count = sp - count := by
  apply sub_eq low
  rw [top_eq] at high
  rw [modulus]
  omega

theorem writeBytesPhys_append (front back : List UInt8) :
    ∀ {target : Nat} {bytes : PhysBytes}, target + front.length ≤ userStackTop →
      writeBytesPhys area.frames stackBottom target (front ++ back) bytes =
        writeBytesPhys area.frames stackBottom (add target front.length) back
          (writeBytesPhys area.frames stackBottom target front bytes) := by
  induction front with
  | nil =>
    intro target bytes high
    rw [add_inside high]
    rfl
  | cons byte rest induction =>
    intro target bytes high
    rw [length_cons] at high
    rw [cons_append, writeBytesPhys, writeBytesPhys, length_cons, add_inside high,
      add_inside (by omega : target + 1 ≤ userStackTop), induction (by omega),
      add_inside (by omega : target + 1 + rest.length ≤ userStackTop)]
    congr 1
    omega

theorem pushStr_spec (string : List UInt8) (state : StackState) (high : state.sp ≤ userStackTop)
    (low : stackBottom + (string.length + 1) ≤ state.sp) :
    (pushStr area.frames stackBottom string state).1 =
        (pushStr area.frames stackBottom string state).2.sp ∧
      area.Below state (pushStr area.frames stackBottom string state).2 (string.length + 1) ∧
      area.CString (pushStr area.frames stackBottom string state).2.bytes
        (pushStr area.frames stackBottom string state).1 string := by
  have sp : sub state.sp (string.length + 1) = state.sp - (string.length + 1) :=
    sub_sp high (by omega)
  have length : (string ++ [0]).length = string.length + 1 := by
    rw [length_append, length_singleton]
  refine ⟨rfl, ?_, ?_⟩
  · rw [pushStr, ← area.writeBytesPhys_append _ _ (by omega)]
    apply Below.write high
    · omega
    · rw [length]
      omega
    · omega
  · rw [pushStr, ← area.writeBytesPhys_append _ _ (by omega)]
    apply area.holds_write
    · omega
    · rw [length]
      omega

def stringBytes : List (List UInt8) → Nat
  | [] => 0
  | string :: rest => string.length + 1 + stringBytes rest

def Strings (state : StackState) (high : Nat) (pointers : List Nat)
    (strings : List (List UInt8)) : Prop :=
  List.Forall₂ (fun pointer string => state.sp ≤ pointer ∧
    pointer + (string.length + 1) ≤ high ∧ area.CString state.bytes pointer string)
    pointers strings

theorem Strings.below {area : StackArea} {state next : StackState} {count high : Nat}
    {pointers : List Nat} (below : area.Below state next count)
    (inside : high ≤ userStackTop) (placed : area.Strings state high pointers strings) :
    area.Strings next high pointers strings := by
  apply placed.imp
  intro pointer string isPlaced
  have moved := below.moved
  refine ⟨by omega, isPlaced.2.1, below.holds isPlaced.1 ?_ isPlaced.2.2⟩
  rw [length_append, length_singleton]
  omega

theorem pushStrs_spec (strings : List (List UInt8)) :
    ∀ state : StackState, state.sp ≤ userStackTop →
      stackBottom + stringBytes strings ≤ state.sp →
      area.Below state (pushStrs area.frames stackBottom strings state).2 (stringBytes strings) ∧
      area.Strings (pushStrs area.frames stackBottom strings state).2 state.sp
        (pushStrs area.frames stackBottom strings state).1 strings := by
  induction strings with
  | nil =>
    intro state high low
    exact ⟨Below.skip low rfl, .nil⟩
  | cons string rest induction =>
    intro state high low
    rw [stringBytes] at low ⊢
    rcases induction state high (by omega) with ⟨restBelow, restPlaced⟩
    have restMoved := restBelow.moved
    rcases area.pushStr_spec string (pushStrs area.frames stackBottom rest state).2 (by omega)
      (by omega) with ⟨address, below, holds⟩
    have moved := below.moved
    rw [pushStrs]
    refine ⟨?_, .cons ⟨le_of_eq address.symm, by omega, holds⟩ (restPlaced.below below high)⟩
    rw [add_comm]
    exact restBelow.trans below

theorem pushU64_spec (state : StackState) (value : Nat) (high : state.sp ≤ userStackTop)
    (low : stackBottom + 8 ≤ state.sp) (aligned : state.sp % 8 = 0) :
    area.Below state (pushU64 area.frames stackBottom state value) 8 ∧
      area.Holds (pushU64 area.frames stackBottom state value).bytes
        (pushU64 area.frames stackBottom state value).sp (le64 value) := by
  have sp : sub state.sp 8 = state.sp - 8 := sub_sp high (by omega)
  rw [pushU64, area.writePhys_eq (by omega) (by omega) (by omega)]
  constructor
  · apply Below.write high
    · omega
    · change _ + 8 ≤ _
      omega
    · omega
  · apply area.holds_write
    · omega
    · change _ + 8 ≤ _
      omega

theorem pushU64s_spec (values : List Nat) :
    ∀ state : StackState, state.sp ≤ userStackTop →
      stackBottom + 8 * values.length ≤ state.sp → state.sp % 8 = 0 →
      area.Below state (pushU64s area.frames stackBottom values state) (8 * values.length) ∧
      ∀ index value, values.reverse[index]? = some value →
        area.Holds (pushU64s area.frames stackBottom values state).bytes
          ((pushU64s area.frames stackBottom values state).sp + 8 * index) (le64 value) := by
  induction values with
  | nil =>
    intro state high low _
    refine ⟨Below.skip low rfl, ?_⟩
    intro index value found
    cases found
  | cons first rest induction =>
    intro state high low aligned
    rw [length_cons] at low
    rcases area.pushU64_spec state first high (by omega) aligned with ⟨below, holds⟩
    have moved := below.moved
    rcases induction (pushU64 area.frames stackBottom state first) (by omega) (by omega)
      (by omega) with ⟨restBelow, restHolds⟩
    have restMoved := restBelow.moved
    have whole : pushU64s area.frames stackBottom (first :: rest) state =
        pushU64s area.frames stackBottom rest (pushU64 area.frames stackBottom state first) := by
      rw [pushU64s, foldl_cons, pushU64s]
    rw [whole, length_cons, reverse_cons]
    constructor
    · have total := below.trans restBelow
      rw [show 8 * (rest.length + 1) = 8 + 8 * rest.length by omega]
      exact total
    · intro index value found
      by_cases early : index < rest.length
      · rw [getElem?_append_left (by rw [length_reverse]; exact early)] at found
        exact restHolds index value found
      rw [getElem?_append_right (by rw [length_reverse]; omega),
        length_reverse, getElem?_singleton] at found
      split at found
      next isLast =>
        cases found
        have place : (pushU64s area.frames stackBottom rest
            (pushU64 area.frames stackBottom state first)).sp + 8 * index =
            (pushU64 area.frames stackBottom state first).sp := by omega
        rw [place]
        apply restBelow.holds le_rfl _ holds
        change _ + 8 ≤ _
        omega
      next => cases found

/-! ## The strings -/

def roundUp16 (count : Nat) : Nat := (count + 15) / 16 * 16

def stringDepth (argv envp : List (List UInt8)) : Nat :=
  roundUp16 (roundUp16 ((argv.headD initPath).length + 1 + platformName.length) + 16) +
    stringBytes envp + stringBytes argv

def stackDepth (argv envp : List (List UInt8)) : Nat :=
  roundUp16 (stringDepth argv envp) +
    8 * (38 + (padWords argv.length envp.length).length + envp.length + argv.length + 3)

theorem alignStack_depth (place : sp + depth = userStackTop) :
    alignStack sp + roundUp16 depth = userStackTop ∧ alignStack sp % 16 = 0 := by
  rw [top_eq] at place ⊢
  rw [alignStack, roundUp16]
  omega

theorem alignStack_sub (count : Nat) (place : sp + depth = userStackTop)
    (fits : depth + count ≤ userStackTop) :
    alignStack (sub sp count) + roundUp16 (depth + count) = userStackTop := by
  rw [sub_sp (by omega) (by omega)]
  exact (alignStack_depth (by omega)).1

variable {argv envp : List (List UInt8)} {info : ImageInfo} {bytes : PhysBytes}

theorem pushFixed_sp (execfn : List UInt8) (tsc : Nat) (bytes : PhysBytes)
    (fits : roundUp16 (roundUp16 (execfn.length + 1 + platformName.length) + 16) ≤
      userStackSize) :
    (pushFixed area.frames stackBottom execfn tsc ⟨userStackTop, bytes⟩).2.2.sp +
      roundUp16 (roundUp16 (execfn.length + 1 + platformName.length) + 16) = userStackTop := by
  have size := size_eq
  have named : (pushStr area.frames stackBottom execfn ⟨userStackTop, bytes⟩).2.sp +
      (execfn.length + 1) = userStackTop := by
    apply (area.pushStr_spec execfn ⟨userStackTop, bytes⟩ le_rfl _).2.1.moved
    rw [roundUp16, roundUp16] at fits
    change _ ≤ userStackTop
    omega
  have platform := alignStack_sub platformName.length named
    (by rw [roundUp16, roundUp16] at fits; omega)
  exact alignStack_sub 16 platform (by rw [roundUp16] at fits; omega)

theorem pushStrings_spec (info : ImageInfo) (bytes : PhysBytes)
    (fits : stringDepth argv envp ≤ userStackSize) {strings : StringArea}
    (pushed : strings = pushStrings area.frames stackBottom userStackTop argv envp info bytes) :
    strings.state.sp + stringDepth argv envp = userStackTop ∧
      area.Strings strings.state userStackTop strings.argPtrs argv ∧
      area.Strings strings.state userStackTop strings.envPtrs envp := by
  subst pushed
  have size := size_eq
  rw [stringDepth] at fits ⊢
  have fixed := area.pushFixed_sp (argv.headD initPath) info.tsc bytes (by omega)
  rcases area.pushStrs_spec envp (pushFixed area.frames stackBottom (argv.headD initPath) info.tsc
    ⟨userStackTop, bytes⟩).2.2 (by omega) (by omega) with ⟨envBelow, envPlaced⟩
  have envMoved := envBelow.moved
  rcases area.pushStrs_spec argv (pushStrs area.frames stackBottom envp
    (pushFixed area.frames stackBottom (argv.headD initPath) info.tsc
      ⟨userStackTop, bytes⟩).2.2).2 (by omega) (by omega) with ⟨argBelow, argPlaced⟩
  have argMoved := argBelow.moved
  refine ⟨?_, ?_, ?_⟩
  · change (pushStrs area.frames stackBottom argv _).2.sp + _ = _
    omega
  · apply argPlaced.imp
    intro pointer string placed
    exact ⟨placed.1, by omega, placed.2.2⟩
  · apply (envPlaced.below argBelow (by omega)).imp
    intro pointer string placed
    exact ⟨placed.1, by omega, placed.2.2⟩

/-! ## The words -/

/-- The words below the strings, in the order in which they are pushed. -/
def stackWords (argc : Nat) (info : ImageInfo) (strings : StringArea) (envc : Nat) : List Nat :=
  auxWords (auxEntries info strings) ++ padWords argc envc ++ (0 :: strings.envPtrs.reverse) ++
    (0 :: strings.argPtrs.reverse) ++ [argc]

theorem pushTables_words {argc envc : Nat} {strings : StringArea}
    (place : strings.state.sp + depth = userStackTop)
    (fits : roundUp16 depth + 8 * 38 ≤ userStackSize) :
    pushTables area.frames stackBottom argc envc info strings =
      pushU64s area.frames stackBottom (stackWords argc info strings envc)
        ⟨alignStack strings.state.sp, strings.state.bytes⟩ := by
  have size := size_eq
  have aligned := alignStack_depth place
  have length : (auxWords (auxEntries info strings)).length = 38 := rfl
  rcases area.pushU64s_spec (auxWords (auxEntries info strings))
    ⟨alignStack strings.state.sp, strings.state.bytes⟩ (by change alignStack _ ≤ _; omega)
    (by change _ ≤ alignStack _; omega) (by change alignStack _ % 8 = 0; omega) with ⟨below, _⟩
  have moved := below.moved
  -- The vector takes a multiple of 16 bytes, so the second alignment changes nothing.
  have same : ∀ sp, sp + 8 * 38 = alignStack strings.state.sp → alignStack sp = sp := by
    intro sp isSp
    rw [alignStack]
    omega
  rw [pushTables, same _ moved]
  simp only [pushU64s, stackWords, foldl_append, foldl_cons, foldl_nil]

/-- The finished stack image. -/
structure Built (argv envp : List (List UInt8)) (info : ImageInfo) (strings : StringArea)
    (state : StackState) : Prop where
  depth : state.sp + stackDepth argv envp = userStackTop
  low : stackBottom ≤ state.sp
  aligned : state.sp % 16 = 8
  words : ∀ index value,
    (stackWords argv.length info strings envp.length).reverse[index]? = some value →
    area.Holds state.bytes (state.sp + 8 * index) (le64 value)
  args : area.Strings state userStackTop strings.argPtrs argv
  envs : area.Strings state userStackTop strings.envPtrs envp

theorem setupStack_built (info : ImageInfo) (bytes : PhysBytes)
    (fits : stackDepth argv envp ≤ userStackSize) :
    area.Built argv envp info
      (pushStrings area.frames stackBottom userStackTop argv envp info bytes)
      (setupStack area.frames stackBottom userStackTop argv envp info bytes) := by
  have size := size_eq
  rw [stackDepth] at fits
  have rounds : stringDepth argv envp ≤ roundUp16 (stringDepth argv envp) := by
    rw [roundUp16]
    omega
  rw [setupStack]
  generalize pushed : pushStrings area.frames stackBottom userStackTop argv envp info bytes =
    strings
  rcases area.pushStrings_spec info bytes (by omega) pushed.symm with ⟨place, args, envs⟩
  have aligned := alignStack_depth place
  rw [area.pushTables_words place (by omega)]
  have count : (stackWords argv.length info strings envp.length).length =
      38 + (padWords argv.length envp.length).length + envp.length + argv.length + 3 := by
    have argCount := args.length_eq
    have envCount := envs.length_eq
    have auxCount : (auxWords (auxEntries info strings)).length = 38 := rfl
    simp only [stackWords, length_append, length_cons, length_reverse,
      length_nil, auxCount, argCount, envCount]
    omega
  have skipped : area.Below strings.state ⟨alignStack strings.state.sp, strings.state.bytes⟩
      (strings.state.sp - alignStack strings.state.sp) :=
    .skip (by omega) (by omega)
  rcases area.pushU64s_spec (stackWords argv.length info strings envp.length)
    ⟨alignStack strings.state.sp, strings.state.bytes⟩ (by change alignStack _ ≤ _; omega)
    (by change _ ≤ alignStack _; omega) (by change alignStack _ % 8 = 0; omega) with
    ⟨below, words⟩
  have moved := below.moved
  rw [count] at moved
  change _ = alignStack _ at moved
  have total := skipped.trans below
  refine ⟨?_, total.low, ?_, words, args.below total le_rfl,
    envs.below total le_rfl⟩
  · rw [stackDepth]
    omega
  · rw [padWords] at moved
    split at moved
    next =>
      rw [length_singleton] at moved
      omega
    next =>
      rw [length_nil] at moved
      omega

/-! ## Decoding -/

def cString (bytes : PhysBytes) : (fuel pointer : Nat) → List UInt8
  | 0, _ => []
  | fuel + 1, pointer =>
    if area.view bytes pointer = 0 then []
    else area.view bytes pointer :: cString bytes fuel (pointer + 1)

theorem cString_eq {bytes : PhysBytes} (string : List UInt8) :
    ∀ {fuel pointer : Nat}, (0 : UInt8) ∉ string → string.length < fuel →
      area.CString bytes pointer string → area.cString bytes fuel pointer = string := by
  induction string with
  | nil =>
    intro fuel pointer _ enough holds
    have terminator : area.view bytes (pointer + 0) = 0 := holds 0 (by decide)
    cases fuel with
    | zero => cases enough
    | succ fuel =>
      rw [add_zero] at terminator
      rw [cString, if_pos terminator]
  | cons byte rest induction =>
    intro fuel pointer nulFree enough holds
    rw [mem_cons, not_or] at nulFree
    have first : area.view bytes (pointer + 0) = byte := holds 0 (by simp)
    have later : area.CString bytes (pointer + 1) rest := by
      intro index bound
      have found := holds (index + 1) (by
        rw [cons_append, length_cons]
        omega)
      rw [cons_append, getD_cons_succ] at found
      rw [← found, add_assoc, add_comm 1]
    cases fuel with
    | zero => cases enough
    | succ fuel =>
      rw [length_cons] at enough
      rw [add_zero] at first
      rw [cString, first, if_neg fun zero => nulFree.1 zero.symm,
        induction nulFree.2 (by omega) later]

def pointers (bytes : PhysBytes) (vaddr count : Nat) : List Nat :=
  (List.range count).map fun index => area.word bytes (vaddr + 8 * index)

def stringsAt (bytes : PhysBytes) (vaddr count : Nat) : List (List UInt8) :=
  (area.pointers bytes vaddr count).map fun pointer =>
    area.cString bytes (userStackTop - pointer) pointer

/-- The stack as the start-up code of a program reads it. -/
structure Decodes (result : StackResult) (argv envp : List (List UInt8)) : Prop where
  argc : area.word result.bytes result.stackTop = argv.length
  argvPtr : result.argvPtr = result.stackTop + 8
  args : area.stringsAt result.bytes result.argvPtr argv.length = argv
  argsNull : area.word result.bytes (result.argvPtr + 8 * argv.length) = 0
  envpPtr : result.envpPtr = result.argvPtr + 8 * (argv.length + 1)
  envs : area.stringsAt result.bytes result.envpPtr envp.length = envp
  envsNull : area.word result.bytes (result.envpPtr + 8 * envp.length) = 0
  nonnull : ∀ pointer, pointer ∈ area.pointers result.bytes result.argvPtr argv.length ∨
    pointer ∈ area.pointers result.bytes result.envpPtr envp.length → pointer ≠ 0
  aligned : result.stackTop % 16 = 8

theorem pointers_eq {bytes : PhysBytes} (words : ∀ index address, addresses[index]? = some address →
      area.word bytes (vaddr + 8 * index) = address) :
    area.pointers bytes vaddr addresses.length = addresses := by
  apply ext_getElem
  · rw [pointers, length_map, length_range]
  · intro index _ bound
    simp only [pointers, getElem_map, getElem_range]
    exact words index _ (getElem?_eq_getElem bound)

theorem strings_map {state : StackState}
    (placed : area.Strings state userStackTop addresses strings)
    (nulFree : ∀ string ∈ strings, (0 : UInt8) ∉ string) :
    addresses.map (fun pointer => area.cString state.bytes (userStackTop - pointer) pointer) =
      strings := by
  induction placed with
  | nil => rfl
  | cons isPlaced _ induction =>
    rw [map_cons, induction fun string member =>
      nulFree string (mem_cons_of_mem _ member)]
    congr 1
    apply area.cString_eq _ (nulFree _ mem_cons_self) _ isPlaced.2.2
    omega

theorem strings_address {state : StackState} (low : stackBottom ≤ state.sp)
    (placed : area.Strings state userStackTop addresses strings) :
    ∀ address ∈ addresses, 0 < address ∧ address < 2 ^ 64 := by
  induction placed with
  | nil => exact forall_mem_nil _
  | cons isPlaced _ induction =>
    have bounds := isPlaced
    rw [bottom_eq] at low
    rw [top_eq] at bounds
    exact forall_mem_cons.mpr ⟨by omega, induction⟩

section Built

variable {area} {strings : StringArea} {state : StackState}
  (built : area.Built argv envp info strings state)

include built

theorem Built.word_at (index : Nat) {place : Nat} (small : value < 2 ^ 64)
    (isPlace : place = state.sp + 8 * index)
    (found : (argv.length :: (strings.argPtrs ++ 0 :: (strings.envPtrs ++ 0 ::
      ((padWords argv.length envp.length).reverse ++
        (auxWords (auxEntries info strings)).reverse))))[index]? = some value) :
    area.word state.bytes place = value := by
  rw [isPlace]
  apply area.word_of_holds small (built.words index value _)
  simpa [stackWords] using found

theorem Built.word_behind {index : Nat} (small : value < 2 ^ 64)
    (found : (strings.envPtrs ++ 0 :: ((padWords argv.length envp.length).reverse ++
      (auxWords (auxEntries info strings)).reverse))[index]? = some value) :
    area.word state.bytes (state.sp + 8 + 8 * (argv.length + 1) + 8 * index) = value := by
  have argCount : strings.argPtrs.length = argv.length := built.args.length_eq
  apply built.word_at (argv.length + 1 + index + 1) small (by omega)
  rw [getElem?_cons_succ, getElem?_append_right (by omega), argCount,
    show argv.length + 1 + index - argv.length = index + 1 by omega]
  exact found

theorem Built.word :
    area.word state.bytes state.sp = argv.length ∧
    (∀ index address, strings.argPtrs[index]? = some address →
      area.word state.bytes (state.sp + 8 + 8 * index) = address) ∧
    area.word state.bytes (state.sp + 8 + 8 * argv.length) = 0 ∧
    (∀ index address, strings.envPtrs[index]? = some address →
      area.word state.bytes (state.sp + 8 + 8 * (argv.length + 1) + 8 * index) = address) ∧
    area.word state.bytes (state.sp + 8 + 8 * (argv.length + 1) + 8 * envp.length) = 0 := by
  have argCount : strings.argPtrs.length = argv.length := built.args.length_eq
  have envCount : strings.envPtrs.length = envp.length := built.envs.length_eq
  have argSmall := area.strings_address built.low built.args
  have envSmall := area.strings_address built.low built.envs
  refine ⟨?_, ?_, ?_, ?_, ?_⟩
  · refine built.word_at 0 ?_ rfl rfl
    have depth := built.depth
    rw [stackDepth, top_eq] at depth
    omega
  · intro index address found
    apply built.word_at (index + 1) (argSmall address (mem_of_getElem? found)).2 (by omega)
    rw [getElem?_cons_succ, getElem?_append_left (List.getElem?_eq_some_iff.mp found).1]
    exact found
  · apply built.word_at (argv.length + 1) (by decide) (by omega)
    rw [getElem?_cons_succ, getElem?_append_right (by omega), argCount, Nat.sub_self]
    rfl
  · intro index address found
    apply built.word_behind (envSmall address (mem_of_getElem? found)).2
    rw [getElem?_append_left (List.getElem?_eq_some_iff.mp found).1]
    exact found
  · apply built.word_behind (by decide)
    rw [getElem?_append_right (by omega), envCount, Nat.sub_self]
    rfl

theorem Built.argvPtr : add state.sp 8 = state.sp + 8 := by
  have depth := built.depth
  rw [stackDepth] at depth
  exact add_inside (by omega)

theorem Built.envpPtr : add (state.sp + 8) (mul (argv.length + 1) 8) =
    state.sp + 8 + 8 * (argv.length + 1) := by
  have depth := built.depth
  rw [stackDepth] at depth
  have product : mul (argv.length + 1) 8 = 8 * (argv.length + 1) := by
    rw [mul_eq, mul_comm]
    rw [top_eq] at depth
    rw [modulus]
    omega
  rw [product, add_inside (by omega)]

/-- The word after the environment's NULL is the padding or the type of `AT_NULL`, which is
pushed last and so comes first. -/
theorem Built.afterEnvironment :
    area.word state.bytes (state.sp + 8 + 8 * (argv.length + 1) + 8 * (envp.length + 1)) = 0 := by
  have envCount : strings.envPtrs.length = envp.length := built.envs.length_eq
  apply built.word_behind (by decide)
  rw [getElem?_append_right (by omega), envCount,
    show envp.length + 1 - envp.length = 0 + 1 by omega, padWords]
  split
  next => rfl
  next => rfl

end Built

/-- For all arguments that fit, the program finds them. -/
theorem initialStack_decodes (area : StackArea) (argv envp : List (List UInt8)) (info : ImageInfo)
    (bytes : PhysBytes) (nulFree : ∀ string ∈ argv ++ envp, (0 : UInt8) ∉ string)
    (fits : stackDepth argv envp ≤ userStackSize) :
    area.Decodes (initialStack area.frames argv envp info bytes) argv envp := by
  have built := area.setupStack_built info bytes fits
  rw [initialStack]
  generalize setupStack area.frames stackBottom userStackTop argv envp info bytes = state
    at built ⊢
  generalize pushStrings area.frames stackBottom userStackTop argv envp info bytes = strings
    at built
  rcases built.word with ⟨argc, args, argsNull, envs, envsNull⟩
  have argCount : strings.argPtrs.length = argv.length := built.args.length_eq
  have envCount : strings.envPtrs.length = envp.length := built.envs.length_eq
  have argArray := area.pointers_eq args
  have envArray := area.pointers_eq envs
  rw [argCount] at argArray
  rw [envCount] at envArray
  rw [built.argvPtr, built.envpPtr]
  refine ⟨argc, rfl, ?_, argsNull, rfl, ?_, envsNull, ?_, built.aligned⟩
  · change (area.pointers state.bytes (state.sp + 8) argv.length).map _ = argv
    rw [argArray]
    exact area.strings_map built.args fun string member =>
      nulFree string (mem_append_left _ member)
  · change (area.pointers state.bytes (state.sp + 8 + 8 * (argv.length + 1)) envp.length).map _ =
      envp
    rw [envArray]
    exact area.strings_map built.envs fun string member =>
      nulFree string (mem_append_right _ member)
  · intro pointer
    rw [argArray, envArray]
    intro member
    rcases member with isArg | isEnv
    · exact ne_of_gt (area.strings_address built.low built.args pointer isArg).1
    · exact ne_of_gt (area.strings_address built.low built.envs pointer isEnv).1

def lowFrames : StackArea where
  frames := List.range 2048
  count := length_range
  distinct := nodup_range

/-- `sh` with one argument and an environment of one string. -/
theorem initialStack_decodes_shell :
    lowFrames.Decodes (initialStack lowFrames.frames [[115, 104], [45, 99]] [[65, 61, 49]]
      ⟨0x401000, 0x400040, 56, 4, 0, 0⟩ (fun _ _ => 0)) [[115, 104], [45, 99]] [[65, 61, 49]] :=
  initialStack_decodes lowFrames [[115, 104], [45, 99]] [[65, 61, 49]] _ _ (by decide) (by decide)

/-! ## The auxiliary vector -/

/-- Pairs of a type and a value from an address up, to the first `AT_NULL`. -/
def readAuxv (bytes : PhysBytes) : (fuel vaddr : Nat) → List (Nat × Nat)
  | 0, _ => []
  | fuel + 1, vaddr =>
    if area.word bytes vaddr = 0 then []
    else (area.word bytes vaddr, area.word bytes (vaddr + 8)) ::
      readAuxv bytes fuel (vaddr + 16)

/-- The start-up code of a program finds the entries after its environment. -/
def FindsAuxv (result : StackResult) (envc : Nat) (entries : List (Nat × Nat)) : Prop :=
  ∃ fuel, ∀ entry ∈ entries,
    entry ∈ area.readAuxv result.bytes fuel (result.envpPtr + 8 * (envc + 1))

theorem readAuxv_empty (area : StackArea) (info : ImageInfo) (bytes : PhysBytes)
    (fits : stackDepth argv envp ≤ userStackSize) (fuel : Nat) :
    area.readAuxv (initialStack area.frames argv envp info bytes).bytes fuel
      ((initialStack area.frames argv envp info bytes).envpPtr + 8 * (envp.length + 1)) = [] := by
  have built := area.setupStack_built info bytes fits
  rw [initialStack]
  generalize setupStack area.frames stackBottom userStackTop argv envp info bytes = state
    at built ⊢
  rw [built.argvPtr, built.envpPtr]
  cases fuel with
  | zero => rfl
  | succ fuel => rw [readAuxv, if_pos built.afterEnvironment]

/-- No program finds its auxiliary vector. -/
theorem auxv_never_found (area : StackArea) (argv envp : List (List UInt8)) (info : ImageInfo)
    (bytes : PhysBytes) (fits : stackDepth argv envp ≤ userStackSize) :
    ¬area.FindsAuxv (initialStack area.frames argv envp info bytes) envp.length
      (auxEntries info
        (pushStrings area.frames stackBottom userStackTop argv envp info bytes)) := by
  rintro ⟨fuel, found⟩
  have pageSize := found (6, 4096) (by simp [auxEntries])
  rw [readAuxv_empty area info bytes fits fuel] at pageSize
  cases pageSize

theorem auxv_never_found_shell :
    stackDepth [[115, 104], [45, 99]] [[65, 61, 49]] ≤ userStackSize ∧
    ¬lowFrames.FindsAuxv (initialStack lowFrames.frames [[115, 104], [45, 99]] [[65, 61, 49]]
        ⟨0x401000, 0x400040, 56, 4, 0, 0⟩ (fun _ _ => 0)) 1
      (auxEntries ⟨0x401000, 0x400040, 56, 4, 0, 0⟩
        (pushStrings lowFrames.frames stackBottom userStackTop [[115, 104], [45, 99]]
          [[65, 61, 49]] ⟨0x401000, 0x400040, 56, 4, 0, 0⟩ (fun _ _ => 0))) :=
  ⟨by decide, auxv_never_found lowFrames [[115, 104], [45, 99]] [[65, 61, 49]] _ _ (by decide)⟩

/-- The vector of a program without arguments and environment starts with `AT_NULL`, although
`AT_ENTRY` was pushed. -/
theorem auxv_hidden :
    (9, 0x401000) ∈ auxEntries ⟨0x401000, 0x400040, 56, 4, 0, 0⟩
      (pushStrings lowFrames.frames stackBottom userStackTop [] []
        ⟨0x401000, 0x400040, 56, 4, 0, 0⟩ (fun _ _ => 0)) ∧
    ∀ fuel, lowFrames.readAuxv (initialStack lowFrames.frames [] []
        ⟨0x401000, 0x400040, 56, 4, 0, 0⟩ (fun _ _ => 0)).bytes fuel
      ((initialStack lowFrames.frames [] [] ⟨0x401000, 0x400040, 56, 4, 0, 0⟩
        (fun _ _ => 0)).envpPtr + 8 * (([] : List (List UInt8)).length + 1)) = [] := by
  constructor
  · simp [auxEntries]
  · exact readAuxv_empty lowFrames _ _ (by decide)

end StackArea

end Qunix.Elf
