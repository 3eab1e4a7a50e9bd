import Mathlib.Data.List.MinMax
import Qunix.Vfs.Resolution

/-! # The mount table

What `find_mount` finds in a table that `mount` and `umount` have built.
-/

namespace Qunix.Vfs

open List

variable {abs point : Path}

/-- A longer list of components is a longer path. -/
theorem render_append {components rest : List Path} (plain : ∀ component ∈ rest, Plain component)
    (nonempty : rest ≠ []) : (render components).length < (render (components ++ rest)).length := by
  have long : 2 ≤ (rest.flatMap (slash :: ·)).length := by
    cases rest with
    | nil => exact absurd rfl nonempty
    | cons first rest =>
      have named := (forall_mem_cons.mp plain).1.named
      cases first with
      | nil => exact absurd (.inl rfl) named
      | cons byte first => simp
  have whole : components ++ rest ≠ [] := by simp [nonempty]
  simp only [render, if_neg whole, flatMap_append, length_append]
  split
  next => exact lt_of_lt_of_le (by decide) (le_trans long (Nat.le_add_left _ _))
  next => exact Nat.lt_add_of_pos_right (lt_of_lt_of_le Nat.two_pos long)

/-! ## The search -/

theorem parts_relOf (rest : Path) : parts (relOf rest) = parts rest := by
  rw [← parts_dropWhile rest, relOf]
  split
  next empty =>
    rw [List.isEmpty_iff.mp empty]
    rfl
  next => rfl

theorem parts_of_covers (covered : covers abs point) :
    parts abs = parts point ++ parts (abs.drop point.length) := by
  rw [covers, Bool.and_eq_true, isPrefixOf_iff_prefix] at covered
  rcases covered with ⟨⟨rest, rfl⟩, ends⟩
  rw [drop_left] at ends ⊢
  cases rest with
  | nil => simp [parts, split]
  | cons byte rest =>
    by_cases isSlash : byte = slash
    · rw [isSlash, parts_join]
    · have top : point = [slash] := by simpa [isSlash] using ends
      rw [top]
      exact parts_slash _

theorem covers_iff (canonical : Canonical abs) (isPoint : Canonical point) :
    covers abs point ↔ Below point abs := by
  constructor
  · intro covered
    exact ⟨_, (parts_of_covers covered).symm⟩
  · rcases canonical with ⟨components, plain, rfl⟩
    rcases isPoint with ⟨front, plainFront, rfl⟩
    rw [Below, parts_render plain, parts_render plainFront]
    rintro ⟨rest, rfl⟩
    cases front <;> cases rest <;> simp [covers, render]

inductive MountCall (Ino : Type)
  | mount (path : Path) (top : Except PathError Ino)
  | umount (path : Path)

def MountCall.path {Ino : Type} : MountCall Ino → Path
  | .mount path _ => path
  | .umount path => path

namespace Tree

variable {Ino : Type} (self : Tree Ino)

/-- A mount takes the place of an earlier one at the same path. -/
def mount (path : Path) (top : Except PathError Ino) : Tree Ino :=
  { self with mounts := self.mounts.filter (·.1 ≠ path) ++ [(path, top)] }

/-- Whether there was a mount at the path, and the table without it. -/
def umount (path : Path) : Bool × Tree Ino :=
  let kept := self.mounts.filter (·.1 ≠ path)
  (kept.length < self.mounts.length, { self with mounts := kept })

def change : MountCall Ino → Tree Ino
  | .mount path top => self.mount path top
  | .umount path => (self.umount path).2

structure Tidy (tree : Tree Ino) : Prop where
  canonical : ∀ mount ∈ tree.mounts, Canonical mount.1
  unique : ∀ {path top other}, (path, top) ∈ tree.mounts → (path, other) ∈ tree.mounts →
    other = top

/-- What `find_mount` has to answer. -/
def Finds (abs : Path) : Option (Except PathError Ino × Path) → Prop
  | none => ∀ mount ∈ self.mounts, ¬Below mount.1 abs
  | some (top, rel) => ∃ path, (∀ other, (path, other) ∈ self.mounts ↔ other = top) ∧
      parts abs = parts path ++ parts rel ∧
      ∀ mount ∈ self.mounts, Below mount.1 abs → (parts mount.1).length ≤ (parts path).length

/-- The longest of the mount points that cover the path. -/
theorem findMount_eq (abs : Path) :
    self.findMount abs = ((self.mounts.filter (covers abs ·.1)).argmax (·.1.length)).map
      fun mount => (mount.2, relOf (abs.drop mount.1.length)) := by
  rw [findMount, List.argmax, foldl_filter]
  congr 2
  funext best mount
  cases covers abs mount.1 <;> cases best <;> simp [List.argAux]

variable {self}

theorem mem_mount {path other : Path} {top entry : Except PathError Ino} :
    (other, entry) ∈ (self.mount path top).mounts ↔
      if other = path then entry = top else (other, entry) ∈ self.mounts := by
  by_cases same : other = path <;> simp [mount, same]

theorem Tidy.change (tidy : self.Tidy) {call : MountCall Ino} (canonical : Canonical call.path) :
    (self.change call).Tidy := by
  cases call with
  | mount path top =>
    constructor
    · rintro ⟨other, entry⟩ member
      rw [Tree.change, mem_mount] at member
      split at member
      next same => exact same ▸ canonical
      next => exact tidy.canonical _ member
    · intro other first second isFirst isSecond
      rw [Tree.change, mem_mount] at isFirst isSecond
      split at isFirst
      next same =>
        rw [if_pos same] at isSecond
        exact isSecond.trans isFirst.symm
      next differs =>
        rw [if_neg differs] at isSecond
        exact tidy.unique isFirst isSecond
  | umount path =>
    exact ⟨fun mount member => tidy.canonical mount (mem_of_mem_filter member),
      fun first second =>
        tidy.unique (mem_of_mem_filter first) (mem_of_mem_filter second)⟩

theorem length_le_of_below {path longer : Path} (isPath : Canonical path)
    (isLonger : Canonical longer) (below : Below path abs) (below' : Below longer abs)
    (bounded : longer.length ≤ path.length) : (parts longer).length ≤ (parts path).length := by
  rcases isPath with ⟨front, plain, rfl⟩
  rcases isLonger with ⟨others, plainOthers, rfl⟩
  rw [Below, parts_render plain] at below
  rw [Below, parts_render plainOthers] at below'
  rw [parts_render plain, parts_render plainOthers]
  by_contra more
  rcases prefix_of_prefix_length_le below below' (by omega) with ⟨rest, rfl⟩
  have nonempty : rest ≠ [] := by
    rintro rfl
    simp at more
  have shorter := @render_append front rest
    (fun component member => plainOthers component (mem_append_right _ member)) nonempty
  omega

theorem Tidy.finds (tidy : self.Tidy) (canonical : Canonical abs) :
    self.Finds abs (self.findMount abs) := by
  rw [findMount_eq]
  have covering {mount} (member : mount ∈ self.mounts) (below : Below mount.1 abs) :
      mount ∈ self.mounts.filter (covers abs ·.1) :=
    mem_filter.mpr ⟨member, (covers_iff canonical (tidy.canonical mount member)).mpr below⟩
  cases found : (self.mounts.filter (covers abs ·.1)).argmax (·.1.length) with
  | none =>
    intro mount member below
    have covers := covering member below
    rw [List.argmax_eq_none.mp found] at covers
    cases covers
  | some mount =>
    rcases mem_filter.mp (argmax_mem found) with ⟨member, covered⟩
    refine ⟨mount.1, fun other => ⟨tidy.unique member, ?_⟩, ?_, ?_⟩
    · rintro rfl
      exact member
    · rw [parts_relOf]
      exact parts_of_covers covered
    · intro other isMount below
      have bounded := le_of_mem_argmax (covering isMount below) found
      exact length_le_of_below (tidy.canonical mount member) (tidy.canonical other isMount)
        ⟨_, (parts_of_covers covered).symm⟩ below bounded

theorem findMount_longest (start : Tree Ino) (empty : start.mounts = [])
    (calls : List (MountCall Ino)) (paths : ∀ call ∈ calls, Canonical call.path)
    (abs : Path) (canonical : Canonical abs) :
    (calls.foldl change start).Finds abs ((calls.foldl change start).findMount abs) := by
  have first : start.Tidy := by
    constructor <;> simp [empty]
  apply Tidy.finds _ canonical
  clear empty
  induction calls generalizing start with
  | nil => exact first
  | cons call calls induction =>
    rw [forall_mem_cons] at paths
    exact induction _ paths.2 (first.change paths.1)

/-- Mounts at `/`, `/d` and `/d/e`, and one at `/d` that has gone; `/d/e2` is below the second. -/
theorem findMount_longest_nested : ∃ tree : Tree Nat,
    tree.mounts = [([47], .ok 0), ([47, 100, 47, 101], .ok 2), ([47, 100], .ok 3)] ∧
      tree.findMount [47, 100, 47, 101, 50] = some (.ok 3, [101, 50]) ∧
      tree.Finds [47, 100, 47, 101, 50] (some (.ok 3, [101, 50])) := by
  have canonical (path : Path) (same : canonicalize path = path) : Canonical path :=
    same ▸ ⟨_, plain_kept path, rfl⟩
  have law := findMount_longest (⟨[], fun _ _ => .error .enoent, fun _ => none⟩ : Tree Nat) rfl
    [.mount [47] (.ok 0), .mount [47, 100] (.ok 1), .mount [47, 100, 47, 101] (.ok 2),
      .umount [47, 100], .mount [47, 100] (.ok 3)]
    (by simp only [forall_mem_cons, MountCall.path]; exact ⟨canonical _ rfl, canonical _ rfl,
      canonical _ rfl, canonical _ rfl, canonical _ rfl, nofun⟩)
    [47, 100, 47, 101, 50] (canonical _ rfl)
  exact ⟨_, rfl, rfl, law⟩

end Tree

end Qunix.Vfs
