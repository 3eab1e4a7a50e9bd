import Mathlib.Tactic.Tauto
import Qunix.Security.Seccomp

/-! # Access to files

The mode bits and the mandatory policy that `qsf_check_file` asks, with masks of more than one
access bit.
-/

namespace Qunix.Security

open BitVec

abbrev SecurityLabel := BitVec 64

namespace SecurityLabel

def kernel : SecurityLabel := 0

def level (self : SecurityLabel) : BitVec 8 := (self >>> 56).setWidth 8

def canFlow (subject object : SecurityLabel) : Bool :=
  subject = kernel || object.level ≤ subject.level

end SecurityLabel

structure MacRule where
  subject : SecurityLabel
  object : SecurityLabel
  access : BitVec 32

def MacRule.isFor (self : MacRule) (subject object : SecurityLabel) : Bool :=
  self.subject = subject && self.object = object

structure MacPolicy where
  rules : List MacRule
  enabled : Bool
  defaultDeny : Bool

def MacPolicy.check (self : MacPolicy) (subject object : SecurityLabel) (access : BitVec 32) :
    Bool :=
  if !self.enabled then true
  else if subject = .kernel then true
  else if !subject.canFlow object then false
  else
    match self.rules.find? (·.isFor subject object) with
    | some rule => rule.access &&& access = access
    | none => !self.defaultDeny

/-- `MAC_ENABLED` and `MAC_POLICY`. -/
structure Mac where
  active : Bool
  policy : MacPolicy

def Mac.check (self : Mac) (subject object : SecurityLabel) (access : BitVec 32) : Bool :=
  !self.active || self.policy.check subject object access

/-- The rights of a subject over an object that the rules and the switches leave it. -/
def Mac.rights (self : Mac) (subject object : SecurityLabel) : BitVec 32 :=
  if !self.active || !self.policy.enabled || subject = .kernel then .allOnes 32
  else if !subject.canFlow object then 0
  else
    match self.policy.rules.find? (·.isFor subject object) with
    | some rule => rule.access
    | none => if self.policy.defaultDeny then 0 else .allOnes 32

/-- The arguments of `qsf_check_file` other than the access mask. -/
structure FileRequest where
  uid : BitVec 32
  gid : BitVec 32
  fileUid : BitVec 32
  fileGid : BitVec 32
  fileMode : BitVec 32
  subject : SecurityLabel
  object : SecurityLabel

/-- The right that the policy is asked for. -/
def macAccess (access : BitVec 8) : BitVec 32 :=
  if access &&& 4 ≠ 0 then 1
  else if access &&& 2 ≠ 0 then 2
  else if access &&& 1 ≠ 0 then 4
  else 1

namespace FileRequest

variable (self : FileRequest) (mac : Mac)

/-- The mode bits of the caller's class, from the lowest one on. -/
def classMode : BitVec 32 :=
  self.fileMode >>>
    (if self.uid = self.fileUid then 6 else if self.gid = self.fileGid then 3 else 0)

def dacCheck (access : BitVec 8) : Bool :=
  self.uid = 0 || self.classMode &&& access.setWidth 32 ≠ 0

def qsfCheckFile (access : BitVec 8) : QsfResult :=
  if !self.dacCheck access then .deny
  else if !mac.check self.subject self.object (macAccess access) then .deny
  else .allow

/-- The mask is allowed exactly if each of its bits is. -/
def Bitwise (mask : BitVec 8) : Prop :=
  self.qsfCheckFile mac mask = .allow ↔
    ∀ bit, mask.getLsbD bit → self.qsfCheckFile mac (.twoPow 8 bit) = .allow

/-- The mode has no bit of the mask; or the rights lack reading, which decides about masks that
contain it or none of the three, or writing, which decides about the other masks that contain it,
or execution, which decides about the rest; or the mode has all bits of the mask, and the rights
have what stands for each of them. -/
def Uniform (mask : BitVec 8) : Prop :=
  let rights := mac.rights self.subject self.object
  let mode := self.classMode &&& mask.setWidth 32
  self.uid ≠ 0 ∧ mode = 0 ∨
    (!rights.getLsbD 0 ∧ (mask &&& 4 ≠ 0 ∨ mask &&& 7 = 0) ∨
      !rights.getLsbD 1 ∧ mask &&& 6 = 2 ∨ !rights.getLsbD 2 ∧ mask &&& 7 = 1) ∨
    (self.uid = 0 ∨ mode = mask.setWidth 32) ∧ (rights.getLsbD 0 ∨ mask &&& 0xFC = 0) ∧
      (rights.getLsbD 1 ∨ mask &&& 2 = 0) ∧ (rights.getLsbD 2 ∨ mask &&& 1 = 0)

/-- The mode has the bit, or is not asked. -/
def Granted (bit : Nat) : Prop := self.uid = 0 ∨ self.classMode.getLsbD bit

variable {self mac} {mask : BitVec 8}

theorem qsfCheckFile_allow : self.qsfCheckFile mac mask = .allow ↔
    self.dacCheck mask ∧ mac.check self.subject self.object (macAccess mask) := by
  rw [qsfCheckFile]
  cases self.dacCheck mask <;> cases mac.check self.subject self.object (macAccess mask) <;> simp

theorem ne_zero_iff {width : Nat} {word : BitVec width} : word ≠ 0 ↔ ∃ bit, word.getLsbD bit := by
  constructor
  · intro nonzero
    exact ⟨_, getLsbD_true_ctz_of_ne_zero nonzero⟩
  · rintro ⟨bit, isSet⟩ rfl
    simp at isSet

theorem dacCheck_iff (nonempty : mask ≠ 0) :
    self.dacCheck mask ↔ ∃ bit, mask.getLsbD bit ∧ self.Granted bit := by
  by_cases root : self.uid = 0
  · simpa [dacCheck, Granted, root] using ne_zero_iff.mp nonempty
  have small : ∀ {bit}, mask.getLsbD bit → bit < 32 :=
    fun isSet => lt_trans (lt_of_getLsbD isSet) (by decide)
  simp only [dacCheck, root, decide_false, Bool.false_or, decide_eq_true_eq, ne_zero_iff,
    getLsbD_and, getLsbD_setWidth, Bool.and_eq_true, Granted, false_or]
  exact exists_congr fun bit =>
    ⟨fun both => ⟨both.2.2, both.1⟩, fun both => ⟨both.2, small both.1, both.1⟩⟩

theorem qsfCheckFile_bit {bit : Nat} (inside : bit < 8) :
    self.qsfCheckFile mac (.twoPow 8 bit) = .allow ↔ self.Granted bit ∧
      mac.check self.subject self.object (macAccess (.twoPow 8 bit)) := by
  have isSet : (BitVec.twoPow 8 bit).getLsbD bit := by simp [inside]
  rw [qsfCheckFile_allow, dacCheck_iff (ne_zero_iff.mpr ⟨bit, isSet⟩)]
  simp [getLsbD_twoPow, inside]

/-! ## Modes -/

theorem dacCheck_false : ¬self.dacCheck mask ↔
    self.uid ≠ 0 ∧ self.classMode &&& mask.setWidth 32 = 0 := by
  simp [dacCheck]

theorem granted_all : (∀ bit, mask.getLsbD bit → self.Granted bit) ↔
    self.uid = 0 ∨ self.classMode &&& mask.setWidth 32 = mask.setWidth 32 := by
  by_cases root : self.uid = 0
  · simp [Granted, root]
  simp only [Granted, root, false_or]
  constructor
  · intro all
    apply eq_of_getLsbD_eq
    intro bit inside
    cases isSet : mask.getLsbD bit with
    | true => simp [isSet, all bit isSet]
    | false => simp [isSet]
  · intro same bit isSet
    have inside : bit < 32 := lt_trans (lt_of_getLsbD isSet) (by decide)
    have both := congrArg (·.getLsbD bit) same
    simp only [getLsbD_and, getLsbD_setWidth, isSet, inside] at both
    simpa using both

/-! ## Rights -/

section

variable {subject object : SecurityLabel} {access : BitVec 32}

theorem check_iff_rights (some : access ≠ 0) :
    mac.check subject object access ↔ mac.rights subject object &&& access = access := by
  have none : ¬0#32 = access := Ne.symm some
  have all : 4294967295#32 &&& access = access := allOnes_and
  rw [Mac.check, MacPolicy.check, Mac.rights]
  cases mac.active with
  | false => simp [all]
  | true =>
    cases mac.policy.enabled with
    | false => simp [all]
    | true =>
      by_cases isKernel : subject = .kernel
      · simp [isKernel, all]
      cases subject.canFlow object with
      | false => simp [isKernel, none]
      | true =>
        cases mac.policy.rules.find? (·.isFor subject object) with
        | some rule => simp [isKernel]
        | none => cases mac.policy.defaultDeny <;> simp [isKernel, none, all]

theorem check_bit {bit : Nat} (inside : bit < 32) :
    mac.check subject object (.twoPow 32 bit) ↔ (mac.rights subject object).getLsbD bit := by
  have isSet : (BitVec.twoPow 32 bit).getLsbD bit := by simp [inside]
  have some : BitVec.twoPow 32 bit ≠ 0#32 := ne_zero_iff.mpr ⟨bit, isSet⟩
  rw [check_iff_rights some, and_twoPow]
  split
  next granted => simp [granted]
  next refused => simp [refused, Ne.symm some]

/-- The bit of the right that the policy is asked for. -/
def askedBit (mask : BitVec 8) : Nat :=
  if mask &&& 4 ≠ 0 then 0
  else if mask &&& 2 ≠ 0 then 1
  else if mask &&& 1 ≠ 0 then 2
  else 0

/-- The right of the mask, given the three. -/
def select (mask : BitVec 8) (read write exec : Bool) : Bool :=
  if askedBit mask = 0 then read else if askedBit mask = 1 then write else exec

theorem check_macAccess : mac.check subject object (macAccess mask) ↔
    select mask ((mac.rights subject object).getLsbD 0) ((mac.rights subject object).getLsbD 1)
      ((mac.rights subject object).getLsbD 2) := by
  have cases : ∀ mask : BitVec 8, macAccess mask = .twoPow 32 (askedBit mask) ∧
      (askedBit mask = 0 ∨ askedBit mask = 1 ∨ askedBit mask = 2) := by
    decide +kernel
  rcases cases mask with ⟨asked, isBit⟩
  rw [asked, select]
  rcases isBit with isBit | isBit | isBit
  · rw [isBit]
    exact check_bit (by decide)
  · rw [isBit]
    exact check_bit (by decide)
  · rw [isBit]
    exact check_bit (by decide)

theorem select_false_iff : ∀ (mask : BitVec 8) (read write exec : Bool),
    ¬select mask read write exec ↔ !read ∧ (mask &&& 4 ≠ 0 ∨ mask &&& 7 = 0) ∨
      !write ∧ mask &&& 6 = 2 ∨ !exec ∧ mask &&& 7 = 1 := by
  decide +kernel

theorem select_bits_iff : ∀ (mask : BitVec 8) (read write exec : Bool),
    (∀ bit < 8, mask.getLsbD bit → select (.twoPow 8 bit) read write exec) ↔
      (read ∨ mask &&& 0xFC = 0) ∧ (write ∨ mask &&& 2 = 0) ∧ (exec ∨ mask &&& 1 = 0) := by
  decide +kernel

theorem check_all : (∀ bit, mask.getLsbD bit →
      mac.check subject object (macAccess (.twoPow 8 bit))) ↔
    ((mac.rights subject object).getLsbD 0 ∨ mask &&& 0xFC = 0) ∧
      ((mac.rights subject object).getLsbD 1 ∨ mask &&& 2 = 0) ∧
      ((mac.rights subject object).getLsbD 2 ∨ mask &&& 1 = 0) := by
  rw [← select_bits_iff]
  exact ⟨fun all bit _ isSet => check_macAccess.mp (all bit isSet),
    fun all bit isSet => check_macAccess.mpr (all bit (lt_of_getLsbD isSet) isSet)⟩

end

/-- The policy is asked for the right of one of the bits. -/
theorem macAccess_first : ∀ mask : BitVec 8, mask ≠ 0 →
    ∃ bit < 8, mask.getLsbD bit ∧ macAccess mask = macAccess (.twoPow 8 bit) := by
  decide +kernel

theorem qsfCheckFile_bitwise_iff (self : FileRequest) (mac : Mac) (mask : BitVec 8)
    (nonempty : mask ≠ 0) : self.Bitwise mac mask ↔ self.Uniform mac mask := by
  have bits : (∀ bit, mask.getLsbD bit → self.qsfCheckFile mac (.twoPow 8 bit) = .allow) ↔
      (∀ bit, mask.getLsbD bit → self.Granted bit) ∧ ∀ bit, mask.getLsbD bit →
        mac.check self.subject self.object (macAccess (.twoPow 8 bit)) := by
    rw [← forall₂_and]
    exact forall₂_congr fun bit isSet => qsfCheckFile_bit (lt_of_getLsbD isSet)
  -- What holds for each bit holds for the mask.
  have mode : (∀ bit, mask.getLsbD bit → self.Granted bit) → self.dacCheck mask := by
    intro all
    rcases macAccess_first mask nonempty with ⟨first, _, isSet, _⟩
    exact (dacCheck_iff nonempty).mpr ⟨first, isSet, all first isSet⟩
  have policy : (∀ bit, mask.getLsbD bit →
      mac.check self.subject self.object (macAccess (.twoPow 8 bit))) →
      mac.check self.subject self.object (macAccess mask) := by
    intro all
    rcases macAccess_first mask nonempty with ⟨first, _, isSet, same⟩
    exact same ▸ all first isSet
  rw [Bitwise, bits, qsfCheckFile_allow, Uniform, ← dacCheck_false, ← select_false_iff,
    ← check_macAccess, ← granted_all, ← check_all]
  tauto

/-- A file of the caller with a mode, and the labels 2 and 1. -/
def owned (fileMode : BitVec 32) : FileRequest := ⟨1000, 1000, 1000, 1000, fileMode, 2, 1⟩

/-- The mode and a rule of an enabled policy grant reading and writing. -/
theorem qsfCheckFile_bitwise_iff_owner :
    (6 : BitVec 8) ≠ 0 ∧ (owned 0o600).Bitwise ⟨true, [⟨2, 1, 3⟩], true, true⟩ 6 :=
  ⟨by decide, (qsfCheckFile_bitwise_iff _ _ 6 (by decide)).mpr
    (.inr (.inr ⟨.inr (by decide), .inl (by decide), .inl (by decide), .inr (by decide)⟩))⟩

/-- Reading and writing at once is allowed, writing is not. -/
theorem owned_not_bitwise : ¬(owned 0o400).Bitwise ⟨false, [], false, false⟩ 6 := by
  intro bitwise
  have write := bitwise.mp (by decide) 1 (by decide)
  revert write
  decide

end FileRequest

end Qunix.Security
