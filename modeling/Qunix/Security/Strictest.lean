import Mathlib.Order.Minimal
import Qunix.Foundation.Word
import Qunix.Security.Seccomp

/-! # The strictest action of a chain

What `run_chain` answers, compared with the actions that the filters return.
-/

namespace Qunix.Security

open Foundation

inductive SeccompAction
  | killProcess
  | killThread
  | trap
  | errno
  | trace
  | log
  | allow
deriving DecidableEq

namespace SeccompAction

def word : SeccompAction → BitVec 32
  | .killProcess => seccompRetKillProcess
  | .killThread => seccompRetKill
  | .trap => seccompRetTrap
  | .errno => seccompRetErrno
  | .trace => seccompRetTrace
  | .log => seccompRetLog
  | .allow => seccompRetAllow

/-- The strictest action has the lowest rank. -/
def rank : SeccompAction → Nat
  | .killProcess | .killThread => 0
  | .trap => 1
  | .errno => 2
  | .trace => 3
  | .log => 4
  | .allow => 5

def result : SeccompAction → QsfResult
  | .killProcess | .killThread | .trap => .kill
  | .errno => .deny
  | .trace | .log | .allow => .allow

/-- The action that a return value names, if it names one. -/
def ofWord (retval : BitVec 32) : Option SeccompAction :=
  [.killProcess, .killThread, .trap, .errno, .trace, .log, .allow].find?
    (·.word = retval &&& seccompRetActionFull)

variable {action other : SeccompAction} {retval larger : BitVec 32}

theorem word_of_ofWord (named : ofWord retval = some action) :
    action.word = retval &&& seccompRetActionFull := by
  simpa using List.find?_some named

theorem actionToQsf_result (retval : BitVec 32) :
    (actionToQsf retval).1 = ((ofWord retval).map result).getD .allow := by
  rw [actionToQsf, ofWord]
  generalize retval &&& seccompRetActionFull = masked
  by_cases named :
      masked ∈ [.killProcess, .killThread, .trap, .errno, .trace, .log, .allow].map word
  · simp only [List.map_cons, List.map_nil, List.mem_cons, List.not_mem_nil, or_false] at named
    rcases named with rfl | rfl | rfl | rfl | rfl | rfl | rfl <;> rfl
  · simp only [List.map_cons, List.map_nil, List.mem_cons, List.not_mem_nil, or_false, not_or,
      word] at named
    simp [word, named, Ne.symm]

theorem masked_le (below : retval ≤ larger) :
    retval &&& seccompRetActionFull ≤ larger &&& seccompRetActionFull := by
  have high : seccompRetActionFull = ~~~BitVec.ofNat 32 (2 ^ 16 - 1) := rfl
  rw [BitVec.le_def] at below ⊢
  rw [high, Word.toNat_clearLow, Word.toNat_clearLow]
  exact Nat.mul_le_mul_right _ (Nat.div_le_div_right below)

/-- The order of the words is the order of the actions, `killProcess` apart. -/
theorem rank_le_of_le (named : ofWord retval = some action)
    (otherNamed : ofWord larger = some other) (below : retval ≤ larger)
    (notProcess : other ≠ .killProcess) : action.rank ≤ other.rank := by
  have ordered : action.word ≤ other.word := by
    rw [word_of_ofWord named, word_of_ofWord otherNamed]
    exact masked_le below
  revert ordered notProcess
  cases action <;> cases other <;> decide

theorem not_killProcess (small : retval ≤ seccompRetAllow) : ofWord retval ≠ some .killProcess := by
  intro named
  have large := word_of_ofWord named ▸ masked_le small
  revert large
  decide

theorem refusal_below (named : ofWord retval = some action) (refuses : action.result ≠ .allow)
    (notProcess : action ≠ .killProcess) : retval ≤ seccompRetAllow := by
  by_contra above
  have masked := masked_le (BitVec.le_of_lt (BitVec.not_le.mp above))
  rw [← word_of_ofWord named] at masked
  revert masked refuses notProcess
  cases action <;> decide

theorem result_of_rank : action.rank = other.rank → action.result = other.result := by
  cases action <;> cases other <;> decide

theorem result_allow :
    action.rank ≤ other.rank → action.result = .allow → other.result = .allow := by
  cases action <;> cases other <;> decide

theorem rank_le_allow (action : SeccompAction) : action.rank ≤ SeccompAction.allow.rank := by
  cases action <;> decide

end SeccompAction

namespace FilterChain

open SeccompAction

variable (chain : FilterChain) (data : SeccompData)

/-- Some filter returns the action. -/
def Returns (action : SeccompAction) : Prop :=
  ∃ filter ∈ chain.filters, ofWord (run filter.insns data) = some action

def smallest : BitVec 32 :=
  chain.filters.foldl (restrict data) seccompRetAllow

/-- What the chain has to answer with: no filter returns a stricter action. -/
structure Strictest (action : SeccompAction) : Prop where
  returned : action = .allow ∨ chain.Returns data action
  least : ∀ other, chain.Returns data other → action.rank ≤ other.rank

structure Restrictive : Prop where
  yields : ∀ action, chain.Strictest data action → (chain.runChain data).1 = action.result
  kills : ∀ action, chain.Returns data action → action.rank = 0 → (chain.runChain data).1 = .kill
  allows : (chain.runChain data).1 = .allow →
    ∀ action, chain.Returns data action → action.result = .allow

/-- No filter returns a smaller value. -/
structure Least (filters : List SeccompFilter) (data : SeccompData) (filter : SeccompFilter) :
    Prop where
  member : filter ∈ filters
  least : ∀ other ∈ filters, run filter.insns data ≤ run other.insns data

/-- Who returns `killProcess` is outvoted only by who kills anyway, and a value below that of
`allow` that names no action hides no refusal. -/
def Heeded : Prop :=
  (chain.Returns data .killProcess → ∃ filter, Least chain.filters data filter ∧
    (ofWord (run filter.insns data) = some .killThread ∨
      ofWord (run filter.insns data) = some .trap)) ∧
  ∀ filter, Least chain.filters data filter → run filter.insns data < seccompRetAllow →
    ofWord (run filter.insns data) = none →
    ∀ action, chain.Returns data action → action.result = .allow

theorem foldl_restrict (filters : List SeccompFilter) (start : BitVec 32) :
    (filters.foldl (restrict data) start = start ∨
      ∃ filter ∈ filters, filters.foldl (restrict data) start = run filter.insns data) ∧
    filters.foldl (restrict data) start ≤ start ∧
    ∀ filter ∈ filters, filters.foldl (restrict data) start ≤ run filter.insns data := by
  induction filters generalizing start with
  | nil => simp
  | cons filter rest induction =>
    rcases induction (restrict data start filter) with ⟨attained, below, least⟩
    have both : restrict data start filter ≤ start ∧
        restrict data start filter ≤ run filter.insns data := by
      rw [restrict]
      split
      · simp_all [BitVec.le_def, BitVec.lt_def]
        omega
      · simp_all [BitVec.le_def, BitVec.lt_def]
    simp only [List.foldl_cons, List.mem_cons, forall_eq_or_imp, exists_eq_or_imp]
    refine ⟨?_, BitVec.le_trans below both.1, BitVec.le_trans below both.2, least⟩
    rcases attained with same | later
    · rw [same, restrict]
      split
      · exact .inr (.inl rfl)
      · exact .inl rfl
    · exact .inr (.inr later)

section

variable {chain data} {filter : SeccompFilter}

/-- The smallest value is the start or comes from a filter. -/
theorem smallest_cases : chain.smallest data = seccompRetAllow ∨ ∃ filter,
    Least chain.filters data filter ∧ chain.smallest data = run filter.insns data ∧
      run filter.insns data ≤ seccompRetAllow := by
  rcases foldl_restrict data chain.filters seccompRetAllow with ⟨attained, below, least⟩
  rcases attained with isStart | ⟨filter, member, same⟩
  · exact .inl isStart
  · rw [same] at below least
    exact .inr ⟨filter, ⟨member, least⟩, same, below⟩

theorem Least.smallest_eq (least : Least chain.filters data filter)
    (below : run filter.insns data ≤ seccompRetAllow) :
    chain.smallest data = run filter.insns data := by
  have bound : chain.smallest data ≤ run filter.insns data :=
    (foldl_restrict data chain.filters seccompRetAllow).2.2 filter least.member
  apply BitVec.le_antisymm bound
  rcases @smallest_cases chain data with isStart | ⟨other, isLeast, same, _⟩
  · rw [isStart]
    exact below
  · rw [same]
    exact least.least other isLeast.member

theorem smallest_unnamed : ofWord (chain.smallest data) = none ↔ ∃ filter,
    Least chain.filters data filter ∧ run filter.insns data < seccompRetAllow ∧
      ofWord (run filter.insns data) = none := by
  constructor
  · intro unnamed
    rcases @smallest_cases chain data with isStart | ⟨filter, least, same, below⟩
    · rw [isStart] at unnamed
      cases unnamed
    · rw [same] at unnamed
      refine ⟨filter, least, BitVec.lt_of_le_ne below fun isAllow => ?_, unnamed⟩
      rw [isAllow] at unnamed
      cases unnamed
  · rintro ⟨filter, least, below, unnamed⟩
    rw [least.smallest_eq (BitVec.le_of_lt below), unnamed]

theorem smallest_kills : (∃ filter, Least chain.filters data filter ∧
      (ofWord (run filter.insns data) = some .killThread ∨
        ofWord (run filter.insns data) = some .trap)) ↔
    ofWord (chain.smallest data) = some .killThread ∨
      ofWord (chain.smallest data) = some .trap := by
  constructor
  · rintro ⟨filter, least, kills⟩
    have below : run filter.insns data ≤ seccompRetAllow := by
      rcases kills with named | named
      · exact refusal_below named nofun nofun
      · exact refusal_below named nofun nofun
    rwa [least.smallest_eq below]
  · intro kills
    rcases @smallest_cases chain data with isStart | ⟨filter, least, same, _⟩
    · rw [isStart] at kills
      exact absurd kills (by decide)
    · exact ⟨filter, least, same ▸ kills⟩

theorem heeded_iff : chain.Heeded data ↔
    (chain.Returns data .killProcess →
      ofWord (chain.smallest data) = some .killThread ∨
        ofWord (chain.smallest data) = some .trap) ∧
    (ofWord (chain.smallest data) = none →
      ∀ action, chain.Returns data action → action.result = .allow) := by
  rw [Heeded, smallest_kills, smallest_unnamed]
  exact and_congr_right fun _ => ⟨fun law ⟨filter, least, below, unnamed⟩ =>
    law filter least below unnamed, fun law filter least below unnamed =>
    law ⟨filter, least, below, unnamed⟩⟩

end

theorem exists_strictest : ∃ action, chain.Strictest data action := by
  rcases exists_minimalFor_of_wellFoundedLT
    (fun action => action = .allow ∨ chain.Returns data action) rank ⟨.allow, .inl rfl⟩
    with ⟨action, returned, least⟩
  refine ⟨action, returned, fun other returns => ?_⟩
  exact (le_total action.rank other.rank).elim id (least (.inr returns))

section

variable {chain data}
variable {action : SeccompAction} (filtering : chain.mode = .filter)

include filtering

theorem runChain_result : (chain.runChain data).1 =
    ((ofWord (chain.smallest data)).map result).getD .allow := by
  rw [runChain, if_neg (by rw [filtering]; decide), actionToQsf_result, smallest]

theorem Heeded.yields (heeded : chain.Heeded data) (strictest : chain.Strictest data action) :
    (chain.runChain data).1 = action.result := by
  rcases foldl_restrict data chain.filters seccompRetAllow with ⟨attained, _, least⟩
  rw [heeded_iff] at heeded
  rw [runChain_result filtering]
  cases named : ofWord (chain.smallest data) with
  | none =>
    rcases strictest.returned with rfl | returns
    · rfl
    · rw [heeded.2 named _ returns]
      rfl
  | some answer =>
    by_cases isProcess : action = .killProcess
    · rcases heeded.1 (isProcess ▸ strictest.returned.resolve_left (by simp [isProcess]))
        with killed | trapped
      · rw [isProcess, ← named, killed]
        rfl
      · rw [isProcess, ← named, trapped]
        rfl
    apply result_of_rank
    apply le_antisymm
    · rcases strictest.returned with rfl | ⟨filter, member, isNamed⟩
      · exact answer.rank_le_allow
      · exact rank_le_of_le named isNamed (least filter member) isProcess
    · rcases attained with isAllow | ⟨filter, member, same⟩
      · rw [smallest, isAllow] at named
        rw [← Option.some.inj named]
        exact rank_le_allow _
      · exact strictest.least answer ⟨filter, member, same ▸ named⟩

theorem runChain_restrictive_iff : chain.Restrictive data ↔ chain.Heeded data := by
  constructor
  · intro restrictive
    rw [heeded_iff]
    refine ⟨fun returns => ?_, fun unnamed => restrictive.allows ?_⟩
    · have killed := restrictive.kills _ returns rfl
      have notProcess := not_killProcess (foldl_restrict data chain.filters _).2.1
      rw [runChain_result filtering] at killed
      cases named : ofWord (chain.smallest data) with
      | none => simp [named] at killed
      | some action => cases action <;> simp_all [result, smallest]
    · rw [runChain_result filtering, unnamed]
      rfl
  · intro heeded
    refine ⟨fun _ => heeded.yields filtering, fun action returns isKill => ?_,
      fun allowed action returns => ?_⟩
    · have strictest : chain.Strictest data action :=
        ⟨.inr returns, fun _ _ => isKill ▸ Nat.zero_le _⟩
      have killing : action.result = killThread.result := result_of_rank isKill
      exact (heeded.yields filtering strictest).trans killing
    · rcases chain.exists_strictest data with ⟨least, strictest⟩
      have yields := heeded.yields filtering strictest
      exact result_allow (strictest.least action returns) (yields.symm.trans allowed)

end

/-- Filters of one instruction, which return `killProcess` and `killThread`. -/
def processKiller : SeccompFilter := ⟨[⟨0x06#16, 0#8, 0#8, 0x80000000#32⟩], rfl⟩
def threadKiller : SeccompFilter := ⟨[⟨0x06#16, 0#8, 0#8, 0#32⟩], rfl⟩

def readCall : SeccompData := ⟨0#32, auditArchX8664, 0#64, Vector.replicate 6 0#64⟩

theorem runChain_restrictive_iff_both :
    FilterChain.Restrictive ⟨[processKiller, threadKiller], .filter⟩ readCall := by
  apply (runChain_restrictive_iff rfl).mpr
  rw [heeded_iff]
  exact ⟨fun _ => .inl (by decide), fun unnamed => absurd unnamed (by decide)⟩

theorem processKiller_allows :
    FilterChain.Returns ⟨[processKiller], .filter⟩ readCall .killProcess ∧
      FilterChain.runChain ⟨[processKiller], .filter⟩ readCall = (.allow, 0) :=
  ⟨⟨processKiller, List.mem_singleton_self _, by decide⟩, by decide⟩

end FilterChain

end Qunix.Security
