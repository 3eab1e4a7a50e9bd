import Mathlib.Algebra.Group.Nat.Defs
import Mathlib.Order.Nat

/-! # Radix trees stored in tables

Several trees live in one store of tables. A slot of a table may hold an entry,
and `child` names the table the entry leads to. A path is a number whose digits
in base `fanout` are the slots taken on the way down. Trees may share tables
outside the paths below `width`; inside, no table is reached in two ways.
-/

namespace Qunix.Foundation

open Function Nat Option

abbrev Tables (Entry : Type) := Nat → Nat → Option Entry

namespace Tables

variable {Entry : Type}

def write (tables : Tables Entry) (table slot : Nat) (entry : Option Entry) : Tables Entry :=
  update tables table (update (tables table) slot entry)

variable {other : Nat}

theorem write_other {tables : Tables Entry} {table : Nat} (different : other ≠ table) (slot : Nat)
    (entry : Option Entry) : tables.write table slot entry other = tables other := by
  rw [write, update_of_ne different]

theorem write_same (tables : Tables Entry) (table slot : Nat) (entry : Option Entry)
    (position : Nat) : tables.write table slot entry table position =
      if position = slot then entry else tables table position := by
  rw [write, update_self, update_apply]

/-- Make the empty table `fresh` the child of a slot. -/
def hang (tables : Tables Entry) (table slot fresh : Nat) (entry : Entry) : Tables Entry :=
  write (update tables fresh fun _ => none) table slot (some entry)

variable (child : Entry → Nat) (fanout : Nat)

/-- The table reached from the root after `depth` digits. -/
def tableAt (tables : Tables Entry) (root : Nat) : (depth path : Nat) → Option Nat
  | 0, _ => some root
  | depth + 1, path =>
    ((tableAt tables root depth (path / fanout)).bind
      fun table => tables table (path % fanout)).map child

def entryAt (tables : Tables Entry) (root depth path : Nat) : Option Entry :=
  (tables.tableAt child fanout root depth (path / fanout)).bind
    fun table => tables table (path % fanout)

theorem tableAt_mod (tables : Tables Entry) (root depth : Nat) : ∀ path,
    tables.tableAt child fanout root depth (path % fanout ^ depth) =
      tables.tableAt child fanout root depth path := by
  induction depth with
  | zero => exact fun _ => rfl
  | succ depth induction =>
    intro path
    have parent : path % fanout ^ (depth + 1) / fanout = path / fanout % fanout ^ depth := by
      rw [Nat.pow_succ', Nat.mod_mul_right_div_self]
    have slot : path % fanout ^ (depth + 1) % fanout = path % fanout :=
      Nat.mod_mod_of_dvd path ⟨fanout ^ depth, Nat.pow_succ'⟩
    rw [tableAt, tableAt, parent, slot, induction]

theorem path_eq_iff {fanout path : Nat} :
    path / fanout = other / fanout ∧ path % fanout = other % fanout ↔ path = other := by
  constructor
  · intro same
    rw [← div_add_mod path fanout, same.1, same.2, div_add_mod]
  · intro same
    rw [same]
    exact ⟨rfl, rfl⟩

/-- The trees below the roots, down to the tables at depth `top`, share no table
inside the paths below `width`. -/
structure Forest (tables : Tables Entry) (roots : Nat → Prop) (width : Nat → Nat)
    (top : Nat) : Prop where
  single : width 0 = 1
  narrow : ∀ depth, width (depth + 1) ≤ width depth * fanout
  distinct : ∀ {left right leftDepth rightDepth leftPath rightPath table},
    roots left → roots right → leftDepth ≤ top → rightDepth ≤ top →
    leftPath < width leftDepth → rightPath < width rightDepth →
    tables.tableAt child fanout left leftDepth leftPath = some table →
    tables.tableAt child fanout right rightDepth rightPath = some table →
    left = right ∧ leftDepth = rightDepth ∧ leftPath = rightPath

/-- The table is part of one of the trees. -/
def IsTable (tables : Tables Entry) (roots : Nat → Prop) (width : Nat → Nat)
    (top table : Nat) : Prop :=
  ∃ root depth path, roots root ∧ depth ≤ top ∧ path < width depth ∧
    tables.tableAt child fanout root depth path = some table

namespace Forest

variable {child : Entry → Nat} {fanout : Nat} {tables : Tables Entry}
variable {roots : Nat → Prop} {width : Nat → Nat} {top : Nat}

section

variable (forest : Forest child fanout tables roots width top)

include forest

theorem parent_lt {depth path : Nat}
    (inside : path < width (depth + 1)) : path / fanout < width depth := by
  apply Nat.div_lt_of_lt_mul
  rw [Nat.mul_comm]
  exact lt_of_lt_of_le inside (forest.narrow depth)

/-! ## Writing a slot of a bottom table -/

theorem tableAt_write {root path table slot : Nat} (isRoot : roots root) (inside : path < width top)
    (found : tables.tableAt child fanout root top path = some table) (entry : Option Entry)
    {other : Nat} (isOther : roots other) :
    ∀ {depth otherPath : Nat}, depth ≤ top → otherPath < width depth →
      (tables.write table slot entry).tableAt child fanout other depth otherPath =
        tables.tableAt child fanout other depth otherPath := by
  intro depth
  induction depth with
  | zero => intros; rfl
  | succ depth induction =>
    intro otherPath below otherInside
    have parentInside := forest.parent_lt otherInside
    simp only [tableAt]
    rw [induction (by omega) parentInside]
    rcases parent : tables.tableAt child fanout other depth (otherPath / fanout) with _ | upper
    · rfl
    have different : upper ≠ table := by
      intro same
      subst same
      have parts := forest.distinct isOther isRoot (by omega) le_rfl
        parentInside inside parent found
      omega
    simp only [bind_some, write_other different]

theorem entryAt_write
    {root path table : Nat} (isRoot : roots root) (inside : path < width (top + 1))
    (found : tables.tableAt child fanout root top (path / fanout) = some table)
    (entry : Option Entry) {other otherPath : Nat} (isOther : roots other)
    (otherInside : otherPath < width (top + 1)) :
    (tables.write table (path % fanout) entry).entryAt child fanout other top otherPath =
      if other = root ∧ otherPath = path then entry
      else tables.entryAt child fanout other top otherPath := by
  have parentInside := forest.parent_lt inside
  have otherParentInside := forest.parent_lt otherInside
  simp only [entryAt]
  rw [forest.tableAt_write isRoot parentInside found entry isOther le_rfl
    otherParentInside]
  rcases parent : tables.tableAt child fanout other top (otherPath / fanout) with _ | upper
  · rw [if_neg]
    · rfl
    · intro same
      rw [same.1, same.2, found] at parent
      cases parent
  simp only [bind_some]
  by_cases same : upper = table
  · subst same
    have parts := forest.distinct isOther isRoot le_rfl le_rfl
      otherParentInside parentInside parent found
    have samePath : otherPath % fanout = path % fanout ↔ otherPath = path :=
      ⟨fun slots => path_eq_iff.mp ⟨parts.2.2, slots⟩, fun equal => by rw [equal]⟩
    simp only [write_same, samePath, parts.1, true_and]
  · rw [write_other same, if_neg]
    intro both
    rw [both.1, both.2, found] at parent
    exact same (Option.some.inj parent).symm

theorem write {root path table slot : Nat} (isRoot : roots root) (inside : path < width top)
    (found : tables.tableAt child fanout root top path = some table) (entry : Option Entry) :
    Forest child fanout (tables.write table slot entry) roots width top where
  single := forest.single
  narrow := forest.narrow
  distinct := by
    intro left right leftDepth rightDepth leftPath rightPath shared isLeft isRight
      leftBelow rightBelow leftInside rightInside leftFound rightFound
    rw [forest.tableAt_write isRoot inside found entry isLeft leftBelow leftInside] at leftFound
    rw [forest.tableAt_write isRoot inside found entry isRight rightBelow rightInside]
      at rightFound
    exact forest.distinct isLeft isRight leftBelow rightBelow leftInside rightInside
      leftFound rightFound

end

/-! ## Hanging an empty table into an empty slot -/

variable {table fresh : Nat}

theorem hang_empty (different : table ≠ fresh) (slot : Nat) (entry : Entry) (position : Nat) :
    tables.hang table slot fresh entry fresh position = none := by
  rw [hang, write_other different.symm, update_self]

theorem hang_other (notTable : other ≠ table) (notFresh : other ≠ fresh) (slot : Nat)
    (entry : Entry) :
    tables.hang table slot fresh entry other = tables other := by
  rw [hang, write_other notTable, update_of_ne notFresh]

theorem hang_table (different : table ≠ fresh) (slot : Nat) (entry : Entry) (position : Nat) :
    tables.hang table slot fresh entry table position =
      if position = slot then some entry else tables table position := by
  rw [hang, write_same, update_of_ne different]

section Hang

variable (forest : Forest child fanout tables roots width top)
variable {root depth path table fresh : Nat} {entry : Entry}
variable (isRoot : roots root) (below : depth < top) (inside : path < width (depth + 1))
variable (found : tables.tableAt child fanout root depth (path / fanout) = some table)
variable (absent : tables table (path % fanout) = none)
variable (unused : ¬tables.IsTable child fanout roots width top fresh)
variable (leads : child entry = fresh)

include forest isRoot below inside found absent unused leads

theorem tableAt_hang {other : Nat} (isOther : roots other) :
    ∀ {otherDepth otherPath : Nat}, otherDepth ≤ top → otherPath < width otherDepth →
      (tables.hang table (path % fanout) fresh entry).tableAt child fanout other
          otherDepth otherPath =
        if other = root ∧ otherDepth = depth + 1 ∧ otherPath = path then some fresh
        else tables.tableAt child fanout other otherDepth otherPath := by
  have parentInside := forest.parent_lt inside
  have tableNotFresh : table ≠ fresh := by
    intro same
    exact unused ⟨root, depth, _, isRoot, le_of_lt below, parentInside, same ▸ found⟩
  have oldAbsent : tables.tableAt child fanout root (depth + 1) path = none := by
    simp [tableAt, found, absent]
  intro otherDepth
  induction otherDepth with
  | zero =>
    intros
    rw [if_neg (by omega)]
    rfl
  | succ otherDepth induction =>
    intro otherPath otherBelow otherInside
    have otherParent := forest.parent_lt otherInside
    simp only [tableAt, induction (le_of_succ_le otherBelow) otherParent]
    by_cases newParent : other = root ∧ otherDepth = depth + 1 ∧ otherPath / fanout = path
    · -- Below the new table there was nothing before and there is nothing now.
      rcases newParent with ⟨sameRoot, sameDepth, samePath⟩
      subst sameRoot sameDepth
      rw [if_pos ⟨rfl, rfl, samePath⟩, samePath]
      simp [hang_empty tableNotFresh, oldAbsent]
    rw [if_neg newParent]
    have above : other = root ∧ otherDepth + 1 = depth + 1 ∧ otherPath = path →
        tables.tableAt child fanout other otherDepth (otherPath / fanout) = some table := by
      rintro ⟨rfl, sameDepth, rfl⟩
      rw [Nat.succ.inj sameDepth, found]
    rcases parent : tables.tableAt child fanout other otherDepth (otherPath / fanout)
      with _ | upper
    · rw [if_neg]
      · rfl
      · intro all
        rw [above all] at parent
        cases parent
    have notFresh : upper ≠ fresh := by
      intro same
      exact unused ⟨other, otherDepth, _, isOther, le_of_succ_le otherBelow,
        otherParent, same ▸ parent⟩
    simp only [bind_some]
    by_cases same : upper = table
    · subst same
      rcases forest.distinct isOther isRoot (le_of_succ_le otherBelow)
        (le_of_lt below) otherParent parentInside parent found with
        ⟨sameRoot, sameDepth, sameUpper⟩
      subst sameRoot sameDepth
      rw [hang_table tableNotFresh]
      by_cases samePath : otherPath = path
      · rw [if_pos (by rw [samePath]), if_pos ⟨rfl, rfl, samePath⟩]
        simp [leads]
      · rw [if_neg (fun slots => samePath (path_eq_iff.mp ⟨sameUpper, slots⟩)),
          if_neg (fun all => samePath all.2.2)]
    · rw [hang_other same notFresh, if_neg]
      intro all
      rw [above all] at parent
      exact same (Option.some.inj parent).symm

theorem entryAt_hang {other otherPath : Nat} (isOther : roots other)
    (otherInside : otherPath < width (top + 1)) :
    (tables.hang table (path % fanout) fresh entry).entryAt child fanout other top otherPath =
      tables.entryAt child fanout other top otherPath := by
  have parentInside := forest.parent_lt inside
  have otherParent := forest.parent_lt otherInside
  have tableNotFresh : table ≠ fresh := by
    intro same
    exact unused ⟨root, depth, _, isRoot, le_of_lt below, parentInside, same ▸ found⟩
  simp only [entryAt]
  rw [forest.tableAt_hang isRoot below inside found absent unused leads isOther
    le_rfl otherParent]
  by_cases newParent : other = root ∧ top = depth + 1 ∧ otherPath / fanout = path
  · have oldAbsent : tables.tableAt child fanout root (depth + 1) path = none := by
      simp [tableAt, found, absent]
    rw [newParent.1, newParent.2.1, newParent.2.2, oldAbsent]
    simp [hang_empty tableNotFresh]
  rw [if_neg newParent]
  rcases parent : tables.tableAt child fanout other top (otherPath / fanout) with _ | upper
  · rfl
  have notFresh : upper ≠ fresh := by
    intro same
    exact unused ⟨other, top, _, isOther, le_rfl, otherParent, same ▸ parent⟩
  have notTable : upper ≠ table := by
    intro same
    subst same
    have parts := forest.distinct isOther isRoot le_rfl (le_of_lt below)
      otherParent parentInside parent found
    omega
  simp only [bind_some, hang_other notTable notFresh]

theorem isTable_hang (candidate : Nat) :
    (tables.hang table (path % fanout) fresh entry).IsTable child fanout roots width top
        candidate ↔
      tables.IsTable child fanout roots width top candidate ∨ candidate = fresh := by
  have hung := @tableAt_hang _ _ _ _ _ _ _ forest _ _ _ _ _ _ isRoot below inside found absent
    unused leads
  have oldAbsent : tables.tableAt child fanout root (depth + 1) path = none := by
    simp [tableAt, found, absent]
  constructor
  · intro isTable
    rcases isTable with ⟨other, otherDepth, otherPath, isOther, otherBelow, otherInside, reached⟩
    rw [hung isOther otherBelow otherInside] at reached
    split at reached
    next => exact .inr (Option.some.inj reached).symm
    next => exact .inl ⟨other, otherDepth, otherPath, isOther, otherBelow, otherInside, reached⟩
  · intro isTable
    rcases isTable with
      ⟨other, otherDepth, otherPath, isOther, otherBelow, otherInside, reached⟩ | same
    · refine ⟨other, otherDepth, otherPath, isOther, otherBelow, otherInside, ?_⟩
      rw [hung isOther otherBelow otherInside, if_neg]
      · exact reached
      · intro all
        rw [all.1, all.2.1, all.2.2, oldAbsent] at reached
        cases reached
    · refine ⟨root, depth + 1, path, isRoot, below, inside, ?_⟩
      rw [hung isRoot below inside, if_pos ⟨rfl, rfl, rfl⟩, same]

theorem hang : Forest child fanout (tables.hang table (path % fanout) fresh entry) roots
    width top where
  single := forest.single
  narrow := forest.narrow
  distinct := by
    have hung := @tableAt_hang _ _ _ _ _ _ _ forest _ _ _ _ _ _ isRoot below inside found absent
      unused leads
    intro left right leftDepth rightDepth leftPath rightPath shared isLeft isRight
      leftBelow rightBelow leftInside rightInside leftFound rightFound
    rw [hung isLeft leftBelow leftInside] at leftFound
    rw [hung isRight rightBelow rightInside] at rightFound
    split at leftFound
    next leftNew =>
      split at rightFound
      next rightNew =>
        exact ⟨leftNew.1.trans rightNew.1.symm, leftNew.2.1.trans rightNew.2.1.symm,
          leftNew.2.2.trans rightNew.2.2.symm⟩
      next =>
        rw [← leftFound] at rightFound
        exact absurd ⟨right, _, _, isRight, rightBelow, rightInside, rightFound⟩ unused
    next =>
      split at rightFound
      next =>
        rw [← rightFound] at leftFound
        exact absurd ⟨left, _, _, isLeft, leftBelow, leftInside, leftFound⟩ unused
      next =>
        exact forest.distinct isLeft isRight leftBelow rightBelow leftInside rightInside
          leftFound rightFound

end Hang

/-! ## Planting a new root -/

section Plant

variable (forest : Forest child fanout tables roots width top)
variable {fresh : Nat} {content : Nat → Option Entry}
variable (unused : ¬tables.IsTable child fanout roots width top fresh)
variable (empty : ∀ slot, slot < width 1 → content slot = none)

include forest unused in
theorem tableAt_plant_old {other : Nat} (isOther : roots other) :
    ∀ {depth path : Nat}, depth ≤ top → path < width depth →
      tableAt child fanout (update tables fresh content) other depth path =
        tables.tableAt child fanout other depth path := by
  intro depth
  induction depth with
  | zero => intros; rfl
  | succ depth induction =>
    intro path below inside
    have parentInside := forest.parent_lt inside
    simp only [tableAt, induction (le_of_succ_le below) parentInside]
    rcases parent : tables.tableAt child fanout other depth (path / fanout) with _ | upper
    · rfl
    have notFresh : upper ≠ fresh := by
      intro same
      exact unused ⟨other, depth, _, isOther, le_of_succ_le below, parentInside, same ▸ parent⟩
    simp only [bind_some, update_of_ne notFresh]

include forest empty in
theorem plant_slot {path : Nat} (inside : path < width 1) :
    update tables fresh content fresh (path % fanout) = none := by
  have narrow := forest.narrow 0
  rw [forest.single, Nat.zero_add] at narrow
  rw [update_self, mod_eq_of_lt (by omega)]
  exact empty path inside

include forest empty in
theorem tableAt_plant_new : ∀ {depth path : Nat}, path < width depth →
    tableAt child fanout (update tables fresh content) fresh depth path =
      if depth = 0 then some fresh else none := by
  intro depth
  induction depth with
  | zero => intros; rfl
  | succ depth induction =>
    intro path inside
    simp only [tableAt, induction (forest.parent_lt inside)]
    cases depth with
    | zero => simp [forest.plant_slot empty inside]
    | succ depth => simp

include forest unused in
theorem entryAt_plant_old {other path : Nat} (isOther : roots other)
    (inside : path < width (top + 1)) :
    entryAt child fanout (update tables fresh content) other top path =
      tables.entryAt child fanout other top path := by
  have parentInside := forest.parent_lt inside
  simp only [entryAt, forest.tableAt_plant_old unused isOther le_rfl parentInside]
  rcases parent : tables.tableAt child fanout other top (path / fanout) with _ | upper
  · rfl
  have notFresh : upper ≠ fresh := by
    intro same
    exact unused ⟨other, top, _, isOther, le_rfl, parentInside, same ▸ parent⟩
  simp only [bind_some, update_of_ne notFresh]

include forest empty in
theorem entryAt_plant_new {path : Nat} (inside : path < width (top + 1)) :
    entryAt child fanout (update tables fresh content) fresh top path = none := by
  simp only [entryAt, forest.tableAt_plant_new empty (forest.parent_lt inside)]
  cases top with
  | zero => simp [forest.plant_slot empty inside]
  | succ top => simp

include forest unused empty in
theorem isTable_plant (candidate : Nat) :
    IsTable child fanout (update tables fresh content)
        (fun root => roots root ∨ root = fresh) width top candidate ↔
      tables.IsTable child fanout roots width top candidate ∨ candidate = fresh := by
  constructor
  · intro isTable
    rcases isTable with ⟨root, depth, path, isRoot, below, inside, reached⟩
    rcases isRoot with isRoot | same
    · rw [forest.tableAt_plant_old unused isRoot below inside] at reached
      exact .inl ⟨root, depth, path, isRoot, below, inside, reached⟩
    · rw [same, forest.tableAt_plant_new empty inside] at reached
      split at reached
      next => exact .inr (Option.some.inj reached).symm
      next => cases reached
  · intro isTable
    rcases isTable with ⟨root, depth, path, isRoot, below, inside, reached⟩ | same
    · refine ⟨root, depth, path, .inl isRoot, below, inside, ?_⟩
      rw [forest.tableAt_plant_old unused isRoot below inside]
      exact reached
    · have single := forest.single
      exact ⟨fresh, 0, 0, .inr rfl, zero_le _, by omega, congrArg some same.symm⟩

include forest unused empty in
theorem plant : Forest child fanout (update tables fresh content)
    (fun root => roots root ∨ root = fresh) width top where
  single := forest.single
  narrow := forest.narrow
  distinct := by
    have single := forest.single
    have old := @tableAt_plant_old _ _ _ _ _ _ _ forest _ content unused
    have new := @tableAt_plant_new _ _ _ tables _ _ _ forest fresh _ empty
    intro left right leftDepth rightDepth leftPath rightPath shared isLeft isRight
      leftBelow rightBelow leftInside rightInside leftFound rightFound
    rcases isLeft with isLeft | leftNew
    · rw [old isLeft leftBelow leftInside] at leftFound
      rcases isRight with isRight | rightNew
      · rw [old isRight rightBelow rightInside] at rightFound
        exact forest.distinct isLeft isRight leftBelow rightBelow leftInside rightInside
          leftFound rightFound
      rw [rightNew, new rightInside] at rightFound
      split at rightFound
      next =>
        rw [← rightFound] at leftFound
        exact absurd ⟨left, _, _, isLeft, leftBelow, leftInside, leftFound⟩ unused
      next => cases rightFound
    · rw [leftNew, new leftInside] at leftFound
      split at leftFound
      next leftZero =>
        rcases isRight with isRight | rightNew
        · rw [old isRight rightBelow rightInside, ← leftFound] at rightFound
          exact absurd ⟨right, _, _, isRight, rightBelow, rightInside, rightFound⟩ unused
        rw [rightNew, new rightInside] at rightFound
        split at rightFound
        next rightZero =>
          subst leftZero rightZero
          exact ⟨leftNew.trans rightNew.symm, rfl, by omega⟩
        next => cases rightFound
      next => cases leftFound

end Plant

end Forest

/-! ## One tree by its slots -/

def slotAt (tables : Tables Entry) (root depth path : Nat) : Option (Nat × Nat) :=
  (tables.tableAt child fanout root depth (path / fanout)).map (·, path % fanout)

/-- No table of the last level is a table of a level above. -/
def Layered (tables : Tables Entry) (root top : Nat) : Prop :=
  ∀ {depth path above leaf}, depth < top →
    tables.tableAt child fanout root top path = some leaf →
    tables.tableAt child fanout root depth above ≠ some leaf

section Slots

variable {child : Entry → Nat} {fanout : Nat} {tables : Tables Entry} {root top : Nat}

theorem entryAt_eq_slot (depth path : Nat) :
    tables.entryAt child fanout root depth path =
      (tables.slotAt child fanout root depth path).bind fun slot => tables slot.1 slot.2 := by
  rw [slotAt, bind_map]
  rfl

theorem slotAt_some {depth path table slot : Nat}
    (found : tables.slotAt child fanout root depth path = some (table, slot)) :
    tables.tableAt child fanout root depth (path / fanout) = some table := by
  rcases map_eq_some_iff.mp found with ⟨same, isTable, isSlot⟩
  rw [isTable, (Prod.mk.inj isSlot).1]

/-- Levels that decrease along every entry keep the tree layered. -/
theorem layered_of_level (level : Nat → Nat) (high : level root = top)
    (decreases : ∀ table slot entry, 0 < level table → tables table slot = some entry →
      level (child entry) + 1 = level table) : tables.Layered child fanout root top := by
  have levels : ∀ depth path table, depth ≤ top →
      tables.tableAt child fanout root depth path = some table → level table + depth = top := by
    intro depth
    induction depth with
    | zero =>
      intro path table _ found
      rw [← Option.some.inj found]
      exact high
    | succ depth induction =>
      intro path table within found
      rcases map_eq_some_iff.mp found with ⟨entry, isEntry, leads⟩
      rcases bind_eq_some_iff.mp isEntry with ⟨parent, isParent, isSlot⟩
      have above := induction _ parent (by omega) isParent
      have below := decreases parent _ entry (by omega) isSlot
      rw [leads] at below
      omega
  intro depth path above leaf below isLeaf isAbove
  have low := levels top path leaf le_rfl isLeaf
  have notLow := levels depth above leaf (le_of_lt below) isAbove
  omega

namespace Layered

variable (layered : tables.Layered child fanout root top)
variable {path leaf : Nat} (found : tables.tableAt child fanout root top path = some leaf)
variable (slot : Nat) (entry : Option Entry)

include layered found

theorem tableAt_write : ∀ {depth : Nat}, depth ≤ top → ∀ other,
    (tables.write leaf slot entry).tableAt child fanout root depth other =
      tables.tableAt child fanout root depth other := by
  intro depth
  induction depth with
  | zero =>
    intro _ other
    rfl
  | succ depth induction =>
    intro within other
    rw [tableAt, tableAt, induction (by omega)]
    cases reached : tables.tableAt child fanout root depth (other / fanout) with
    | none => rfl
    | some table =>
      have different : table ≠ leaf := by
        intro same
        exact layered (by omega) found (same ▸ reached)
      rw [bind_some, bind_some, write_other different]

theorem entryAt_write_above {depth : Nat} (below : depth < top) (other : Nat) :
    (tables.write leaf slot entry).entryAt child fanout root depth other =
      tables.entryAt child fanout root depth other := by
  rw [entryAt, entryAt, layered.tableAt_write found slot entry (le_of_lt below)]
  cases reached : tables.tableAt child fanout root depth (other / fanout) with
  | none => rfl
  | some table =>
    have different : table ≠ leaf := by
      intro same
      exact layered below found (same ▸ reached)
    rw [bind_some, bind_some, write_other different]

theorem slotAt_write (other : Nat) :
    (tables.write leaf slot entry).slotAt child fanout root top other =
      tables.slotAt child fanout root top other := by
  rw [slotAt, slotAt, layered.tableAt_write found slot entry le_rfl]

theorem write : (tables.write leaf slot entry).Layered child fanout root top := by
  intro depth other above table below isLeaf
  rw [layered.tableAt_write found slot entry le_rfl] at isLeaf
  rw [layered.tableAt_write found slot entry (le_of_lt below)]
  exact layered below isLeaf

theorem entryAt_write (other : Nat) :
    (tables.write leaf slot entry).entryAt child fanout root top other =
      if tables.slotAt child fanout root top other = some (leaf, slot) then entry
      else tables.entryAt child fanout root top other := by
  rw [entryAt_eq_slot, entryAt_eq_slot, layered.slotAt_write found]
  cases reached : tables.slotAt child fanout root top other with
  | none => simp
  | some place =>
    rcases place with ⟨table, position⟩
    simp only [bind_some, Option.some.injEq, Prod.mk.injEq]
    by_cases sameTable : table = leaf
    · simp [sameTable, write_same]
    · simp [sameTable, write_other]

end Layered

end Slots

end Tables

end Qunix.Foundation
