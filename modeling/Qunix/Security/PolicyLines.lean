import Mathlib.Data.List.DropRight
import Qunix.Security.FileAccess

/-! # Policy lines

The lines of `/proc/qsf/policy`, and what a line that denies an access does to the others.
-/

namespace Qunix.Security

open BitVec List

inductive ParseError
  | unknownCommand (text : String)
  | missingField (field : String)
  | invalidHex (text : String)
  | invalidAccess (text : String)

/-- What a line asks for. -/
inductive Directive
  | nothing
  | enable (enabled : Bool)
  | default (deny : Bool)
  | flush
  | allow (subject object : SecurityLabel) (access : BitVec 32)
  | deny (subject object : SecurityLabel) (access : BitVec 32)

/-- `char::is_whitespace`. -/
def isWhitespace (char : Char) : Bool :=
  char.toNat ∈ [9, 10, 11, 12, 13, 32, 0x85, 0xA0, 0x1680, 0x2028, 0x2029, 0x202F, 0x205F,
      0x3000] ||
    0x2000 ≤ char.toNat && char.toNat ≤ 0x200A

def trim (text : String) : String :=
  .ofList ((text.toList.dropWhile isWhitespace).rdropWhile isWhitespace)

def splitWhitespace (text : String) : List String :=
  ((text.toList.splitOnP isWhitespace).filter (· ≠ [])).map .ofList

def stripPrefix (front text : String) : Option String :=
  if front.toList <+: text.toList then some (.ofList (text.toList.drop front.length)) else none

def hexDigit (char : Char) : Option Nat := "0123456789abcdef".toList.idxOf? char.toLower

/-- `u64::from_str_radix` for the base 16. -/
def fromHex (text : String) : Option (BitVec 64) :=
  let digits := if text.toList.head? = some '+' then text.toList.tail else text.toList
  let value := digits.foldlM (fun value char => do
    let value := value * 16 + (← hexDigit char)
    if value ≤ 0xFFFFFFFFFFFFFFFF then some value else none) 0
  if digits = [] then none else value.map (.ofNat 64)

def parseLabel (text : String) : Except ParseError SecurityLabel :=
  let text := trim text
  let hex := (stripPrefix "0x" text <|> stripPrefix "0X" text).getD text
  (fromHex hex).elim (.error (.invalidHex text)) .ok

def accessBits : String → Option (BitVec 32)
  | "read" | "r" => some 1
  | "write" | "w" => some 2
  | "exec" | "x" => some 4
  | "net" | "n" => some 8
  | "ipc" => some 16
  | "signal" | "s" => some 32
  | "ptrace" => some 64
  | "admin" | "a" => some 128
  | "all" => some (.allOnes 32)
  | _ => none

def parseAccess (text : String) : Except ParseError (BitVec 32) :=
  ((trim text).toList.splitOnP (· = ',')).foldlM (fun bits token =>
    let token := trim (.ofList token)
    (accessBits token).elim (.error (.invalidAccess token)) fun more => .ok (bits ||| more)) 0

def extractKv (tokens : List String) (key : String) : Except ParseError String :=
  (tokens.findSome? (stripPrefix (key ++ "="))).elim (.error (.missingField key)) .ok

def parseRule (tokens : List String) :
    Except ParseError (SecurityLabel × SecurityLabel × BitVec 32) := do
  let subject ← extractKv tokens "subject"
  let object ← extractKv tokens "object"
  let access ← extractKv tokens "access"
  return (← parseLabel subject, ← parseLabel object, ← parseAccess access)

def parseLine (line : String) : Except ParseError Directive :=
  let line := trim line
  if line.toList.head? = some '#' then .ok .nothing
  else
    let tokens := splitWhitespace line
    match tokens with
    | [] => .ok .nothing
    | "mac" :: rest =>
      match rest.head?.getD "" with
      | "enable" => .ok (.enable true)
      | "disable" => .ok (.enable false)
      | "default" => .ok (.default (rest[1]?.getD "allow" = "deny"))
      | "flush" => .ok .flush
      | other => .error (.unknownCommand other)
    | "flush" :: _ => .ok .flush
    | "allow" :: _ => (parseRule tokens).map fun rule => .allow rule.1 rule.2.1 rule.2.2
    | "deny" :: _ => (parseRule tokens).map fun rule => .deny rule.1 rule.2.1 rule.2.2
    | other :: _ => .error (.unknownCommand other)

def MacPolicy.addRule (self : MacPolicy) (subject object : SecurityLabel) (access : BitVec 32) :
    MacPolicy :=
  { self with
    rules := self.rules.filter (!·.isFor subject object) ++ [⟨subject, object, access⟩] }

namespace Mac

variable (self : Mac)

/-- A line that denies writes two rules, and the second one grants everything else. -/
def perform : Directive → Mac
  | .nothing => self
  | .enable enabled => ⟨enabled, { self.policy with enabled := enabled }⟩
  | .default deny => { self with policy := { self.policy with defaultDeny := deny } }
  | .flush => { self with policy := { self.policy with rules := [] } }
  | .allow subject object access =>
    { self with policy := self.policy.addRule subject object access }
  | .deny subject object access =>
    { self with
      policy := (self.policy.addRule subject object 0).addRule subject object (~~~access) }

def applyLine (line : String) : Except ParseError Mac := (parseLine line).map self.perform

/-- The accesses are refused, and nothing that was refused is granted. -/
def Denies (next : Mac) (subject object : SecurityLabel) (denied : BitVec 32) : Prop :=
  (∀ access, access &&& denied ≠ 0 → next.check subject object access = false) ∧
  ∀ {anyone anything access}, access ≠ 0 → self.check anyone anything access = false →
    next.check anyone anything access = false

/-- If the subject may reach the object at all, all other accesses are granted already. -/
def Spares (subject object : SecurityLabel) (denied : BitVec 32) : Prop :=
  subject.canFlow object → ~~~denied ≠ 0 → self.check subject object (~~~denied)

end Mac

theorem not_and_eq_iff {denied access : BitVec 32} :
    ~~~denied &&& access = access ↔ access &&& denied = 0 := by
  rw [BitVec.and_comm]
  constructor
  · intro same
    rw [← same, BitVec.and_assoc]
    simp
  · intro apart
    apply eq_of_getLsbD_eq
    intro bit inside
    have clear := congrArg (·.getLsbD bit) apart
    simp only [getLsbD_and, getLsbD_not, ofNat_eq_ofNat, getLsbD_zero] at clear ⊢
    cases isSet : access.getLsbD bit <;> simp_all

namespace MacPolicy

variable (policy : MacPolicy) {subject object : SecurityLabel} (access : BitVec 32)

theorem isFor_iff {rule : MacRule} :
    rule.isFor subject object ↔ rule.subject = subject ∧ rule.object = object := by
  simp [MacRule.isFor]

theorem find_addRule_same : (policy.addRule subject object access).rules.find?
    (·.isFor subject object) = some ⟨subject, object, access⟩ := by
  rw [addRule, find?_append, find?_eq_none.mpr]
  · simp [isFor_iff]
  · simp

theorem find_addRule_other {anyone anything : SecurityLabel}
    (other : ¬(anyone = subject ∧ anything = object)) :
    (policy.addRule subject object access).rules.find? (·.isFor anyone anything) =
      policy.rules.find? (·.isFor anyone anything) := by
  have behind : [(⟨subject, object, access⟩ : MacRule)].find? (·.isFor anyone anything) = none := by
    simpa [isFor_iff] using fun isSubject isObject => other ⟨isSubject.symm, isObject.symm⟩
  rw [addRule, find?_append, find?_filter, behind, Option.or_none]
  congr 1
  funext rule
  by_cases isOther : rule.isFor anyone anything
  · have notSame : ¬rule.isFor subject object := by
      rw [isFor_iff] at isOther ⊢
      rwa [isOther.1, isOther.2]
    simp [isOther, notSame]
  · simp [isOther]

end MacPolicy

namespace Mac

variable {mac : Mac} {subject object anyone anything : SecurityLabel}
variable {denied access larger : BitVec 32}

theorem check_mono (part : larger &&& access = access) (granted : mac.check subject object larger) :
    mac.check subject object access := by
  rw [check, MacPolicy.check] at granted ⊢
  revert granted
  cases mac.policy.rules.find? (·.isFor subject object) with
  | none => exact id
  | some rule =>
    have inside (same : rule.access &&& larger = larger) : rule.access &&& access = access := by
      rw [← part, ← BitVec.and_assoc, same]
    grind

theorem check_other (other : ¬(anyone = subject ∧ anything = object)) :
    (mac.perform (.deny subject object denied)).check anyone anything access =
      mac.check anyone anything access := by
  have found := (MacPolicy.find_addRule_other (mac.policy.addRule subject object 0) (~~~denied)
    other).trans (mac.policy.find_addRule_other 0 other)
  rw [check, MacPolicy.check, check, MacPolicy.check, ← found]
  rfl

section

variable (active : mac.active) (enabled : mac.policy.enabled) (notKernel : subject ≠ .kernel)

include active enabled notKernel

theorem check_deny : (mac.perform (.deny subject object denied)).check subject object access ↔
    subject.canFlow object ∧ access &&& denied = 0 := by
  have found := @MacPolicy.find_addRule_same (mac.policy.addRule subject object 0) subject object
    (~~~denied)
  rw [← not_and_eq_iff, check, MacPolicy.check, perform, found]
  simp [MacPolicy.addRule, active, enabled, notKernel]

theorem applyLine_deny_iff {line : String}
    (isDeny : parseLine line = .ok (.deny subject object denied)) :
    ∃ next, mac.applyLine line = .ok next ∧
      (mac.Denies next subject object denied ↔ mac.Spares subject object denied) := by
  have after {access} := @check_deny mac subject object denied access active enabled notKernel
  refine ⟨mac.perform (.deny subject object denied), by rw [applyLine, isDeny]; rfl, ?_⟩
  constructor
  · rintro ⟨_, spares⟩ flows nonempty
    by_contra refused
    have still := spares nonempty (Bool.eq_false_of_not_eq_true refused)
    rw [after.mpr ⟨flows, by simp [BitVec.and_comm]⟩] at still
    cases still
  · intro spares
    refine ⟨fun access meets => ?_, fun {anyone anything access} nonempty refused => ?_⟩
    · exact Bool.eq_false_of_not_eq_true fun granted => meets (after.mp granted).2
    · by_cases same : anyone = subject ∧ anything = object
      · rw [same.1, same.2] at refused ⊢
        apply Bool.eq_false_of_not_eq_true
        intro granted
        have part := not_and_eq_iff.mpr (after.mp granted).2
        have some : ~~~denied ≠ 0 := by
          intro none
          rw [none] at part
          exact nonempty (part.symm.trans zero_and)
        have before := spares (after.mp granted).1 some
        rw [check_mono part before] at refused
        cases refused
      · rw [check_other same, refused]

end

/-- An enabled policy that refuses what no rule grants. -/
def closed : Mac := ⟨true, [], true, true⟩

theorem applyLine_deny_iff_all : ∃ next,
    closed.applyLine "deny subject=0x02 object=0x01 access=all" = .ok next ∧
      closed.Denies next 2 1 (.allOnes 32) := by
  have line : parseLine "deny subject=0x02 object=0x01 access=all" =
      .ok (.deny 2 1 (.allOnes 32)) := rfl
  obtain ⟨next, applied, denies⟩ := @applyLine_deny_iff closed 2 1 _ rfl rfl (by decide) _ line
  exact ⟨next, applied, denies.mpr fun _ some => absurd rfl some⟩

/-- Reading is refused before the line that denies execution, and granted after it. -/
theorem closed_opens :
    ¬∃ next, closed.applyLine "deny subject=2 object=1 access=exec" = .ok next ∧
      closed.Denies next 2 1 4 := by
  rintro ⟨next, applied, denies⟩
  have line : parseLine "deny subject=2 object=1 access=exec" = .ok (.deny 2 1 4) := rfl
  rw [applyLine, line] at applied
  have refused := @denies.2 2 1 1 (by decide) (by decide)
  rw [← Except.ok.inj applied] at refused
  revert refused
  decide

end Mac

end Qunix.Security
