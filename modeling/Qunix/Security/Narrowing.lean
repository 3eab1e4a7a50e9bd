import Qunix.Security.Strictest

/-! # Chains that change

A process may install further filters and enter strict mode. Neither takes anything back from the
filters, but strict mode does not ask them, and a new filter ends it.
-/

namespace Qunix.Security

inductive Change
  | install (filter : SeccompFilter)
  | setStrict

namespace FilterChain

open SeccompAction

variable (chain : FilterChain)

def perform : Change → FilterChain
  | .install filter => chain.install filter
  | .setStrict => chain.setStrict

def allowed : Set SeccompData := {data | (chain.runChain data).1 = .allow}

/-- The calls of strict mode. -/
def Basic (data : SeccompData) : Prop := data.nr.toNat ∈ [0, 1, 15, 60, 231]

/-- A filter without a smaller value than the others names a refusal, other than `killProcess`,
whose value is above all others. -/
def Refused (filters : List SeccompFilter) (data : SeccompData) : Prop :=
  ∃ filter, Least filters data filter ∧ ∃ action, ofWord (run filter.insns data) = some action ∧
    action.result ≠ .allow ∧ action ≠ .killProcess

/-- Strict mode takes the place of filters that refuse none of its calls. Filters take the place of
strict mode if together with the new one they refuse all others. Elsewhere a new filter that names
no action for a refused call returns a value below those of all earlier filters for none. -/
def Tightens : Change → Prop
  | .setStrict => chain.mode ≠ .strict → ∀ data, Basic data → ¬Refused chain.filters data
  | .install filter =>
    if chain.mode = .strict then ∀ data, ¬Basic data → Refused (filter :: chain.filters) data
    else ∀ data, Refused chain.filters data → ofWord (run filter.insns data) = none →
      ∃ other ∈ chain.filters, run other.insns data ≤ run filter.insns data

/-- Every change does. -/
def Tightening : FilterChain → List Change → Prop
  | _, [] => True
  | chain, change :: rest => chain.Tightens change ∧ Tightening (chain.perform change) rest

variable {chain} {data : SeccompData} {filter : SeccompFilter}

/-! ## Refused calls -/

/-- The chain refuses exactly what its smallest value refuses. -/
theorem refused_iff : Refused chain.filters data ↔
    ((ofWord (chain.smallest data)).map result).getD .allow ≠ .allow := by
  constructor
  · rintro ⟨filter, least, action, named, refuses, notProcess⟩
    rw [least.smallest_eq (refusal_below named refuses notProcess), named]
    exact refuses
  · intro refuses
    rcases @smallest_cases chain data with isStart | ⟨filter, least, same, below⟩
    · rw [isStart] at refuses
      exact absurd rfl refuses
    · rw [same] at refuses
      cases named : ofWord (run filter.insns data) with
      | none =>
        rw [named] at refuses
        exact absurd rfl refuses
      | some action =>
        rw [named] at refuses
        refine ⟨filter, least, action, named, refuses, fun isProcess => ?_⟩
        exact not_killProcess below (isProcess ▸ named)

theorem mem_allowed : data ∈ chain.allowed ↔
    if chain.mode = .strict then Basic data else ¬Refused chain.filters data := by
  change (chain.runChain data).1 = .allow ↔ _
  rw [runChain, Basic]
  split
  next => split <;> simp_all
  next => rw [actionToQsf_result, refused_iff, smallest, not_not]

theorem refused_install :
    Refused (chain.install filter).filters data ↔ Refused (filter :: chain.filters) data := by
  have same : ∀ other, other ∈ (chain.install filter).filters ↔ other ∈ filter :: chain.filters :=
    fun other => by simp [install, or_comm]
  have least (other : SeccompFilter) : Least (chain.install filter).filters data other ↔
      Least (filter :: chain.filters) data other :=
    ⟨fun least => ⟨(same _).mp least.member, fun _ member => least.least _ ((same _).mpr member)⟩,
      fun least => ⟨(same _).mpr least.member, fun _ member => least.least _ ((same _).mp member)⟩⟩
  simp only [Refused, least]

/-- A refusal stays with a new filter, unless this returns less and names no action. -/
theorem refused_cons (refused : Refused chain.filters data) :
    Refused (filter :: chain.filters) data ↔ (ofWord (run filter.insns data) = none →
      ∃ other ∈ chain.filters, run other.insns data ≤ run filter.insns data) := by
  rcases refused with ⟨old, least, action, named, refuses, notProcess⟩
  constructor
  · rintro ⟨new, isLeast, other, isNamed, _, _⟩ unnamed
    rcases List.mem_cons.mp isLeast.member with rfl | member
    · rw [unnamed] at isNamed
      cases isNamed
    · exact ⟨new, member, isLeast.least _ List.mem_cons_self⟩
  · intro heeded
    by_cases below : run old.insns data ≤ run filter.insns data
    · refine ⟨old, ⟨List.mem_cons_of_mem _ least.member, ?_⟩, action, named, refuses, notProcess⟩
      intro other member
      rcases List.mem_cons.mp member with rfl | inside
      · exact below
      · exact least.least other inside
    have less := BitVec.le_of_lt (BitVec.not_le.mp below)
    refine ⟨filter, ⟨List.mem_cons_self, ?_⟩, ?_⟩
    · intro other member
      rcases List.mem_cons.mp member with rfl | inside
      · exact BitVec.le_refl _
      · exact BitVec.le_trans less (least.least other inside)
    cases isNamed : ofWord (run filter.insns data) with
    | none =>
      rcases heeded isNamed with ⟨other, member, under⟩
      exact absurd (BitVec.le_trans (least.least other member) under) below
    | some stricter =>
      have ranks := rank_le_of_le isNamed named less notProcess
      refine ⟨stricter, rfl, fun allows => refuses (result_allow ranks allows), ?_⟩
      rintro rfl
      exact not_killProcess (BitVec.le_trans less (refusal_below named refuses notProcess)) isNamed

/-! ## Runs -/

/-- A change narrows the chain exactly if it meets the condition. -/
theorem allowed_subset_iff (change : Change) :
    (chain.perform change).allowed ⊆ chain.allowed ↔ chain.Tightens change := by
  cases change with
  | setStrict =>
    have strictly : chain.setStrict.mode = .strict := rfl
    change chain.setStrict.allowed ⊆ chain.allowed ↔ _
    simp only [Set.subset_def, mem_allowed, if_pos strictly, Tightens]
    by_cases strict : chain.mode = .strict
    · simp [strict]
    · simp [strict]
  | install filter =>
    have loose : (chain.install filter).mode ≠ .strict := nofun
    change (chain.install filter).allowed ⊆ chain.allowed ↔ _
    simp only [Set.subset_def, mem_allowed, if_neg loose, refused_install, Tightens]
    by_cases strict : chain.mode = .strict
    · simp only [if_pos strict]
      exact forall_congr' fun data => not_imp_comm
    · simp only [if_neg strict]
      apply forall_congr'
      intro data
      rw [not_imp_not]
      exact forall_congr' refused_cons

theorem run_ret (k : BitVec 32) : run [⟨0x06#16, 0#8, 0#8, k⟩] data = k := by
  change runFor _ data (999999 + 1) .new = k
  rw [runFor]
  simp [Vm.new, Vm.exec, BpfInsn.opClass, BpfInsn.src, BpfInsn.bpfA]

/-- A filter of one instruction, which returns `log`. -/
def logger : SeccompFilter := ⟨[⟨0x06#16, 0#8, 0#8, 0x7FFC0000#32⟩], rfl⟩

end FilterChain

end Qunix.Security
