import Qunix.Foundation.Bytes
import Qunix.Foundation.Word

/-! # The initial user stack

`setup_stack` of `elf/mod.rs`: the arguments, the environment and the auxiliary
vector of a new program, pushed down from the top of its stack. The kernel writes
through the physical frames of the stack pages.
-/

namespace Qunix.Elf

open Foundation Bytes Word

def userStackSize : Nat := 8 * 1024 * 1024

def userStackTop : Nat := 0x7FFFFFFF0000

def stackBottom : Nat := userStackTop - userStackSize

abbrev PhysBytes := Nat → Nat → UInt8

def poke (bytes : PhysBytes) (frame offset : Nat) (byte : UInt8) : PhysBytes :=
  Function.update bytes (frame + offset / 4096)
    (Function.update (bytes (frame + offset / 4096)) (offset % 4096) byte)

def pokeAll (frame : Nat) : (offset : Nat) → List UInt8 → PhysBytes → PhysBytes
  | _, [], bytes => bytes
  | offset, byte :: rest, bytes => pokeAll frame (offset + 1) rest (poke bytes frame offset byte)

/-! ## The writes of the kernel -/

section Writes

variable (frames : List Nat) (stackBase : Nat)

def writePhys (vaddr value : Nat) (bytes : PhysBytes) : PhysBytes :=
  match frames[sub vaddr stackBase / 4096]? with
  | some frame => pokeAll frame (vaddr % 4096) (le64 value) bytes
  | none => bytes

def writeBytesPhys : (vaddr : Nat) → List UInt8 → PhysBytes → PhysBytes
  | _, [], bytes => bytes
  | vaddr, byte :: rest, bytes =>
    writeBytesPhys (add vaddr 1) rest
      (match frames[sub vaddr stackBase / 4096]? with
      | some frame => poke bytes frame (vaddr % 4096) byte
      | none => bytes)

structure StackState where
  sp : Nat
  bytes : PhysBytes

/-- Push a string and its NUL. The answer is the address of the string. -/
def pushStr (string : List UInt8) (state : StackState) : Nat × StackState :=
  let sp := sub state.sp (string.length + 1)
  (sp, ⟨sp, writeBytesPhys frames stackBase (add sp string.length) [0]
    (writeBytesPhys frames stackBase sp string state.bytes)⟩)

/-- Push strings, the last one first. The addresses come in the order of the strings. -/
def pushStrs : List (List UInt8) → StackState → List Nat × StackState
  | [], state => ([], state)
  | string :: rest, state =>
    let (pointers, state) := pushStrs rest state
    let (pointer, state) := pushStr frames stackBase string state
    (pointer :: pointers, state)

def pushU64 (state : StackState) (value : Nat) : StackState :=
  let sp := sub state.sp 8
  ⟨sp, writePhys frames stackBase sp value state.bytes⟩

def pushU64s (values : List Nat) (state : StackState) : StackState :=
  values.foldl (pushU64 frames stackBase) state

/-- `sp &= !0xF`. -/
def alignStack (sp : Nat) : Nat := sp / 16 * 16

end Writes

/-! ## `setup_stack` -/

/-- What the loader knows about the image. -/
structure ImageInfo where
  atEntry : Nat
  phdrAddr : Nat
  phent : Nat
  phnum : Nat
  atBase : Nat
  /-- The time stamp counter, from which the random bytes are made. -/
  tsc : Nat

/-- `/init`. -/
def initPath : List UInt8 := [47, 105, 110, 105, 116]

/-- `x86_64` and a NUL. -/
def platformName : List UInt8 := [120, 56, 54, 95, 54, 52, 0]

structure StringArea where
  execfnAddr : Nat
  platformAddr : Nat
  randAddr : Nat
  envPtrs : List Nat
  argPtrs : List Nat
  state : StackState

section Setup

variable (frames : List Nat) (stackBase : Nat)

/-- The program name, the platform name and the random bytes. The answer is the addresses of
the names; the stack pointer is at the random bytes. -/
def pushFixed (execfn : List UInt8) (tsc : Nat) (state : StackState) : Nat × Nat × StackState :=
  let named := pushStr frames stackBase execfn state
  let platformAddr := alignStack (sub named.2.sp platformName.length)
  let bytes := writeBytesPhys frames stackBase platformAddr platformName named.2.bytes
  let randAddr := alignStack (sub platformAddr 16)
  let bytes := writePhys frames stackBase randAddr (Nat.xor tsc 0xDEADBEEF01020304) bytes
  let bytes := writePhys frames stackBase (add randAddr 8) (Nat.xor tsc 0xBEEFCAFE05060708)
    bytes
  (named.1, platformAddr, ⟨randAddr, bytes⟩)

def pushStrings (stackTop : Nat) (argv envp : List (List UInt8)) (info : ImageInfo)
    (bytes : PhysBytes) : StringArea :=
  let fixed := pushFixed frames stackBase (argv.headD initPath) info.tsc ⟨stackTop, bytes⟩
  let env := pushStrs frames stackBase envp fixed.2.2
  let arg := pushStrs frames stackBase argv env.2
  ⟨fixed.1, fixed.2.1, fixed.2.2.sp, env.1, arg.1, arg.2⟩

/-- The entries of the auxiliary vector in the order in which they are pushed. -/
def auxEntries (info : ImageInfo) (strings : StringArea) : List (Nat × Nat) :=
  [(31, strings.execfnAddr), (15, strings.platformAddr), (25, strings.randAddr), (23, 0), (14, 0),
    (13, 0), (12, 0), (11, 0), (9, info.atEntry), (8, 0), (7, info.atBase), (5, info.phnum),
    (4, info.phent), (3, info.phdrAddr), (17, 100), (6, 4096), (16, 0x078bfbfd), (26, 0)]

/-- The words pushed for the vector, with `AT_NULL` at the end. -/
def auxWords (entries : List (Nat × Nat)) : List Nat :=
  (entries ++ [(0, 0)]).flatMap fun entry : Nat × Nat => [entry.2, entry.1]

/-- A word of padding when the number of words that follow is even. -/
def padWords (argc envc : Nat) : List Nat :=
  if (1 + argc + 1 + envc + 1) % 2 = 0 then [0] else []

/-- The auxiliary vector and the pointer arrays below the strings. -/
def pushTables (argc envc : Nat) (info : ImageInfo) (strings : StringArea) : StackState :=
  let state := { strings.state with sp := alignStack strings.state.sp }
  let state := pushU64s frames stackBase (auxWords (auxEntries info strings)) state
  let state := { state with sp := alignStack state.sp }
  let state := pushU64s frames stackBase (padWords argc envc) state
  let state := pushU64s frames stackBase (0 :: strings.envPtrs.reverse) state
  let state := pushU64s frames stackBase (0 :: strings.argPtrs.reverse) state
  pushU64 frames stackBase state argc

def setupStack (stackTop : Nat) (argv envp : List (List UInt8)) (info : ImageInfo)
    (bytes : PhysBytes) : StackState :=
  pushTables frames stackBase argv.length envp.length info
    (pushStrings frames stackBase stackTop argv envp info bytes)

end Setup

/-- What `exec_inner` reports of the stack. -/
structure StackResult where
  stackTop : Nat
  argc : Nat
  argvPtr : Nat
  envpPtr : Nat
  bytes : PhysBytes

def initialStack (frames : List Nat) (argv envp : List (List UInt8)) (info : ImageInfo)
    (bytes : PhysBytes) : StackResult :=
  let state := setupStack frames stackBottom userStackTop argv envp info bytes
  let argvPtr := add state.sp 8
  ⟨state.sp, argv.length, argvPtr, add argvPtr (mul (argv.length + 1) 8), state.bytes⟩

end Qunix.Elf
