import Mathlib.Data.List.Nodup
import Mathlib.Data.List.Perm.Subperm
import Mathlib.Data.Set.Card

/-! # Chains in a table of links

A table gives every cell the number that comes after it. Some numbers are no cells and end a
chain. The cells of a chain stand in a list beside the table.
-/

namespace Qunix.Foundation.LinkedChains

open List

variable {Ends : Nat → Prop} [DecidablePred Ends] {table other : Nat → Nat}
variable {start last stop fuel : Nat} {cells front rest : List Nat}

variable (Ends) in
/-- The cells from a number on, in the order of the links. -/
def Chain (table : Nat → Nat) : Nat → List Nat → Prop
  | start, [] => Ends start
  | start, cell :: rest => start = cell ∧ ¬Ends cell ∧ Chain table (table cell) rest

variable (Ends) in
/-- Follow the links for at most `fuel` cells. -/
def walk (table : Nat → Nat) : (fuel : Nat) → Nat → Option (List Nat)
  | 0, start => if Ends start then some [] else none
  | fuel + 1, start =>
    if Ends start then some [] else (walk table fuel (table start)).map (start :: ·)

theorem Chain.walk (chain : Chain Ends table start cells) (enough : cells.length ≤ fuel) :
    walk Ends table fuel start = some cells := by
  induction cells generalizing start fuel with
  | nil =>
    have ends : Ends start := chain
    cases fuel with
    | zero => rw [LinkedChains.walk, if_pos ends]
    | succ fuel => rw [LinkedChains.walk, if_pos ends]
  | cons cell rest induction =>
    rcases chain with ⟨rfl, notEnds, later⟩
    cases fuel with
    | zero => simp at enough
    | succ fuel =>
      have enoughLater : rest.length ≤ fuel := Nat.le_of_succ_le_succ enough
      rw [LinkedChains.walk, if_neg notEnds, induction later enoughLater, Option.map_some]

omit [DecidablePred Ends]

variable {cell bound steps : Nat}

section

variable (chain : Chain Ends table start cells)
include chain

theorem Chain.unique {second : List Nat}
    (again : Chain Ends table start second) : cells = second := by
  induction cells generalizing start second with
  | nil =>
    cases second with
    | nil => rfl
    | cons cell rest =>
      rcases again with ⟨rfl, notEnds, _⟩
      exact absurd chain notEnds
  | cons cell rest induction =>
    rcases chain with ⟨rfl, notEnds, later⟩
    cases second with
    | nil => exact absurd again notEnds
    | cons head tail =>
      rcases again with ⟨rfl, _, againLater⟩
      rw [induction later againLater]

omit chain in
theorem Chain.suffix (chain : Chain Ends table start (front ++ cell :: rest)) :
    Chain Ends table cell (cell :: rest) := by
  induction front generalizing start with
  | nil =>
    rcases chain with ⟨rfl, later⟩
    exact ⟨rfl, later⟩
  | cons head tail induction => exact induction chain.2.2

theorem Chain.nodup : cells.Nodup := by
  induction cells generalizing start with
  | nil => exact nodup_nil
  | cons cell rest induction =>
    refine nodup_cons.mpr ⟨?_, induction chain.2.2⟩
    intro again
    rcases append_of_mem again with ⟨front, back, rfl⟩
    have whole : Chain Ends table cell (cell :: (front ++ cell :: back)) := ⟨rfl, chain.2⟩
    have part : Chain Ends table cell (cell :: back) := chain.2.2.suffix
    have lengths := congrArg List.length (whole.unique part)
    simp only [length_cons, length_append] at lengths
    omega

theorem Chain.length_le (small : ∀ cell ∈ cells, cell < bound) : cells.length ≤ bound := by
  have inRange : cells ⊆ List.range bound := fun cell member =>
    mem_range.mpr (small cell member)
  have shorter := (chain.nodup.subperm inRange).length_le
  rwa [length_range] at shorter

theorem Chain.congr
    (same : ∀ cell ∈ cells, other cell = table cell) : Chain Ends other start cells := by
  induction cells generalizing start with
  | nil => exact chain
  | cons cell rest induction =>
    rcases chain with ⟨rfl, notEnds, later⟩
    refine ⟨rfl, notEnds, ?_⟩
    rw [same start mem_cons_self]
    exact induction later fun cell member => same cell (mem_cons_of_mem _ member)

end

theorem Chain.splice {tail : List Nat} (chain : Chain Ends table start (front ++ last :: rest))
    (same : ∀ cell ∈ front, other cell = table cell) (joined : Chain Ends other (other last) tail) :
    Chain Ends other start (front ++ last :: tail) := by
  induction front generalizing start with
  | nil =>
    rcases chain with ⟨rfl, notEnds, _⟩
    exact ⟨rfl, notEnds, joined⟩
  | cons cell front induction =>
    rcases chain with ⟨rfl, notEnds, later⟩
    refine ⟨rfl, notEnds, ?_⟩
    rw [same start mem_cons_self]
    exact induction later fun cell member => same cell (mem_cons_of_mem _ member)

/-! ## Walks that may not end -/

theorem chain_of_walk [DecidablePred Ends] (walked : walk Ends table fuel start = some cells) :
    Chain Ends table start cells := by
  induction fuel generalizing start cells with
  | zero =>
    rw [walk] at walked
    split at walked <;> cases walked
    assumption
  | succ fuel induction =>
    rw [walk] at walked
    split at walked
    next ends =>
      cases walked
      exact ends
    next goesOn =>
      rcases Option.map_eq_some_iff.mp walked with ⟨rest, later, rfl⟩
      exact ⟨rfl, goesOn, induction later⟩

theorem Chain.ends (chain : Chain Ends table start cells) : Ends (table^[cells.length] start) := by
  induction cells generalizing start with
  | nil => exact chain
  | cons cell rest induction =>
    rcases chain with ⟨rfl, _, later⟩
    exact induction later

theorem exists_chain (ends : Ends (table^[steps] start)) :
    ∃ cells, cells.length ≤ steps ∧ Chain Ends table start cells := by
  induction steps generalizing start with
  | zero => exact ⟨[], le_rfl, ends⟩
  | succ steps induction =>
    by_cases here : Ends start
    · exact ⟨[], Nat.zero_le _, here⟩
    · rcases induction ends with ⟨cells, short, later⟩
      exact ⟨start :: cells, Nat.succ_le_succ short, rfl, here, later⟩

/-- The cell that a walk comes to after a number of links. -/
def Comes (Ends : Nat → Prop) (table : Nat → Nat) (start steps cell : Nat) : Prop :=
  table^[steps] start = cell ∧ ∀ earlier ≤ steps, ¬Ends (table^[earlier] start)

theorem Chain.comes (chain : Chain Ends table start cells)
    (comes : Comes Ends table start steps cell) : cells[steps]? = some cell := by
  induction cells generalizing start steps with
  | nil => exact absurd chain (comes.2 0 (Nat.zero_le steps))
  | cons head rest induction =>
    rcases chain with ⟨rfl, _, later⟩
    cases steps with
    | zero => exact congrArg some comes.1
    | succ steps =>
      exact induction later
        ⟨comes.1, fun earlier before => comes.2 (earlier + 1) (Nat.succ_le_succ before)⟩

/-- All cells that a walk comes to. -/
def visited (Ends : Nat → Prop) (table : Nat → Nat) (start : Nat) : Set Nat :=
  {cell | ∃ steps, Comes Ends table start steps cell}

theorem Chain.encard_visited_le (chain : Chain Ends table start cells) :
    (visited Ends table start).encard ≤ cells.length := by
  have inCells : visited Ends table start ⊆ cells.toFinset := by
    rintro cell ⟨steps, comes⟩
    exact mem_toFinset.mpr (mem_of_getElem? (chain.comes comes))
  calc (visited Ends table start).encard ≤ (cells.toFinset : Set Nat).encard :=
        Set.encard_le_encard inCells
    _ = cells.toFinset.card := Set.encard_coe_eq_coe_finsetCard _
    _ ≤ cells.length := Nat.cast_le.mpr (toFinset_card_le cells)

/-- A walk ends after at most as many cells as a bound says if and only if it comes nowhere twice,
and to no more cells from the bound on than it leaves out below. -/
theorem exists_chain_iff : (∃ cells, cells.length ≤ bound ∧ Chain Ends table start cells) ↔
    (∀ first second cell, Comes Ends table start first cell →
      Comes Ends table start second cell → first = second) ∧
    (visited Ends table start \ Set.Iio bound).encard ≤
      (Set.Iio bound \ visited Ends table start).encard := by
  have size : (Set.Iio bound).encard = bound := by
    rw [← Finset.coe_range, Set.encard_coe_eq_coe_finsetCard, Finset.card_range]
  have finite : (Set.Iio bound).Finite := Set.finite_of_encard_eq_coe size
  rw [← Set.encard_le_encard_iff_encard_sdiff_le_encard_sdiff
    (finite.subset Set.inter_subset_right), size]
  constructor
  · rintro ⟨cells, few, chain⟩
    refine ⟨fun first second cell comes again => ?_,
      chain.encard_visited_le.trans (Nat.cast_le.mpr few)⟩
    have here := chain.comes comes
    exact (getElem?_inj (List.getElem?_eq_some_iff.mp here).1 chain.nodup).mp
      (here.trans (chain.comes again).symm)
  · rintro ⟨once, few⟩
    by_contra never
    have goesOn (steps : Nat) (early : steps ≤ bound) : ¬Ends (table^[steps] start) := by
      intro ends
      rcases exists_chain ends with ⟨cells, short, chain⟩
      exact never ⟨cells, short.trans early, chain⟩
    have comes (steps : Nat) (early : steps < bound + 1) :
        Comes Ends table start steps (table^[steps] start) :=
      ⟨rfl, fun earlier before => goesOn earlier (by omega)⟩
    -- A walk that goes on comes to one cell more than the bound.
    have distinct : Set.InjOn (fun steps => table^[steps] start) (Finset.range (bound + 1)) := by
      intro first early second later same
      rw [Finset.coe_range] at early later
      have again := comes second later
      rw [← show table^[first] start = table^[second] start from same] at again
      exact once first second _ (comes first early) again
    have more : ((bound + 1 : Nat) : ℕ∞) ≤ bound := by
      rw [← Finset.card_range (bound + 1), ← Set.encard_coe_eq_coe_finsetCard,
        ← distinct.encard_image]
      refine (Set.encard_le_encard ?_).trans few
      rintro _ ⟨steps, early, rfl⟩
      exact ⟨steps, comes steps (Finset.mem_range.mp early)⟩
    exact absurd (Nat.cast_le.mp more) (by omega)

end Qunix.Foundation.LinkedChains
