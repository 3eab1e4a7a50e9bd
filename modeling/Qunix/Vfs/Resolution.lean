import Qunix.Vfs.Paths

/-! # Resolution

How `vfs/mod.rs` turns a path into an absolute one below the root of a process and follows it
through mounts and symbolic links.
-/

namespace Qunix.Vfs

open List

abbrev Absolute (path : Path) : Prop := path.head? = some slash

/-- The path before it is compared with the effective root. -/
def rawPath (root cwd path : Path) : Path :=
  if Absolute path then
    if root = [slash] then canonicalize path
    else
      let stripped := path.dropWhile (· = slash)
      if stripped = [] then root
      else canonicalize (root.rdropWhile (· = slash) ++ slash :: stripped)
  else canonicalize (if cwd.getLast? = some slash then cwd ++ path else cwd ++ slash :: path)

/-- A path that does not start with the root, as a string, is replaced by it. -/
def absPath (root cwd path : Path) : Path :=
  if root ≠ [slash] ∧ ¬root <+: rawPath root cwd path then root else rawPath root cwd path

/-! ## Resolution -/

inductive PathError
  | enoent
  | eloop
  | other (code : Nat)
deriving DecidableEq

/-- The file systems: the mount points with `get_root`, and what `lookup` and, for links,
`readlink` answer. -/
structure Tree (Ino : Type) where
  mounts : List (Path × Except PathError Ino)
  lookup : Ino → Path → Except PathError Ino
  readlink : Ino → Option (Except PathError Path)

/-- How the loop over the components ends: at a node, or at a link with this number of components
from the link on. -/
inductive Stop (Ino : Type)
  | found (ino : Ino)
  | link (target : Path) (left : Nat)

/-- The mount point is the path up to the end of one of its components. -/
def covers (abs point : Path) : Bool := point.isPrefixOf abs &&
  ((abs.drop point.length).isEmpty || (abs.drop point.length).head? == some slash ||
    point == [slash])

/-- The path behind a mount point. -/
def relOf (rest : Path) : Path :=
  let rel := rest.dropWhile (· == slash)
  if rel.isEmpty then [slash] else rel

namespace Tree

variable {Ino : Type} (self : Tree Ino)

/-- The longest mount point that ends where a component of the path ends. -/
def findMount (abs : Path) : Option (Except PathError Ino × Path) :=
  let best := self.mounts.foldl (fun best mount =>
    if covers abs mount.1 && best.all (·.1.length < mount.1.length) then some mount else best) none
  best.map fun mount => (mount.2, relOf (abs.drop mount.1.length))

def walk (followLast : Bool) (cur : Ino) : List Path → Except PathError (Stop Ino)
  | [] => .ok (.found cur)
  | part :: rest => do
    let child ← self.lookup cur part
    match self.readlink child with
    | none => walk followLast child rest
    | some target =>
      if followLast || !rest.isEmpty then return .link (← target) (rest.length + 1)
      else walk followLast child rest

def look (followLast : Bool) (abs : Path) : Except PathError (Stop Ino) :=
  match self.findMount abs with
  | none => .error .enoent
  | some (top, rel) => do self.walk followLast (← top) (parts rel)

/-- `resolve_inode_inner` with `fuel` more links to go, for a choice of the path that takes the
place of a path with a link. -/
def resolveWith (next : Path → Path → Nat → Path) (followLast : Bool) :
    (fuel : Nat) → Path → Except PathError Ino
  | 0, _ => .error .eloop
  | fuel + 1, abs =>
    match self.look followLast abs with
    | .error error => .error error
    | .ok (.found ino) => .ok ino
    | .ok (.link target left) => resolveWith next followLast fuel (next abs target left)

end Tree

/-- Remove the last component, as often as there are components from the link on. -/
def truncate : Nat → Path → Path
  | 0, path => path
  | count + 1, path =>
    truncate count (if slash ∈ path then (path.rdropWhile (· ≠ slash)).dropLast else path)

/-- The path that is resolved in the place of a path with a link. -/
def nextPath (root abs target : Path) (left : Nat) : Path :=
  if Absolute target then canonicalize target
  else absPath root [slash] (truncate left abs ++ slash :: target)

/-- `MAX_SYMLINK_DEPTH` is 40, and the first path is not a link's. -/
def Tree.resolveInode {Ino : Type} (self : Tree Ino) (root cwd path : Path) :
    Except PathError Ino :=
  self.resolveWith (nextPath root) true 41 (absPath root cwd path)

/-! ## Runs -/

variable {abs : Path}

namespace Tree

variable {Ino : Type} {self : Tree Ino} {next : Path → Path → Nat → Path} {followLast : Bool}

/-- The paths that a resolution looks at, with the number of links before each. -/
inductive Reaches (self : Tree Ino) (next : Path → Path → Nat → Path) (followLast : Bool)
    (start : Path) : Nat → Path → Prop
  | start : Reaches self next followLast start 0 start
  | link {count left : Nat} {abs target : Path} : Reaches self next followLast start count abs →
      self.look followLast abs = .ok (.link target left) →
      Reaches self next followLast start (count + 1) (next abs target left)

theorem Reaches.invariant {start abs : Path} {limit count : Nat} {Holds : Path → Prop}
    (first : Holds start)
    (keeps : ∀ {count abs target left}, count + 1 < limit →
      Reaches self next followLast start count abs → Holds abs →
      self.look followLast abs = .ok (.link target left) → Holds (next abs target left))
    (reaches : Reaches self next followLast start count abs) (early : count < limit) :
    Holds abs := by
  induction reaches with
  | start => exact first
  | link earlier isLink induction => exact keeps early earlier (induction (by omega)) isLink

variable {start : Path} {count : Nat}

theorem resolveWith_ok {ino : Ino} (fuel : Nat)
    (reaches : Reaches self next followLast start count abs)
    (done : self.resolveWith next followLast fuel abs = .ok ino) :
    ∃ number last, number < count + fuel ∧ Reaches self next followLast start number last ∧
      self.look followLast last = .ok (.found ino) := by
  induction fuel generalizing abs count with
  | zero => cases done
  | succ fuel induction =>
    rw [resolveWith] at done
    split at done
    next => cases done
    next found =>
      cases done
      exact ⟨count, abs, by omega, reaches, found⟩
    next isLink =>
      rcases induction (reaches.link isLink) done with ⟨number, last, early, rest⟩
      exact ⟨number, last, by omega, rest⟩

theorem resolveWith_congr {other : Path → Path → Nat → Path} {limit : Nat}
    (same : ∀ {count abs target left}, count + 1 < limit →
      Reaches self next followLast start count abs →
      self.look followLast abs = .ok (.link target left) →
      next abs target left = other abs target left) (fuel : Nat) (isLimit : count + fuel = limit)
    (reaches : Reaches self next followLast start count abs) :
    self.resolveWith next followLast fuel abs = self.resolveWith other followLast fuel abs := by
  induction fuel generalizing abs count with
  | zero => rfl
  | succ fuel induction =>
    rw [resolveWith, resolveWith]
    split
    next => rfl
    next => rfl
    next isLink =>
      cases fuel with
      | zero => rfl
      | succ fuel =>
        rw [← same (by omega) reaches isLink, induction (by omega) (reaches.link isLink)]

theorem resolveWith_eloop (fuel : Nat) {chain : Nat → Path}
    (links : ∀ index < fuel, ∃ target left,
      self.look followLast (chain index) = .ok (.link target left) ∧
      chain (index + 1) = next (chain index) target left) :
    self.resolveWith next followLast fuel (chain 0) = .error .eloop := by
  induction fuel generalizing chain with
  | zero => rfl
  | succ fuel induction =>
    rcases links 0 (Nat.succ_pos fuel) with ⟨target, left, isLink, isNext⟩
    have later := @induction (fun index => chain (index + 1))
      fun index below => links (index + 1) (Nat.succ_lt_succ below)
    rw [isNext] at later
    rw [resolveWith, isLink]
    exact later

end Tree

/-! ## Confinement -/

/-- The names that a path leads to from the root or from the working directory, each component of
it on those before. -/
def arrives (root cwd path : Path) : List Path :=
  (split path).foldl push (parts (if Absolute path then root else cwd))

/-- Next to the root, in something whose name only begins with that of the root. -/
def Beside (root : Path) (names : List Path) : Prop :=
  ∃ front name extra rest, parts root = front ++ [name] ∧ extra ≠ [] ∧
    names = front ++ (name ++ extra) :: rest

/-- A link that does not lead out of the root. The target of a relative one is taken from the
root and the link's directory, which contains the root already. -/
def Harmless (root abs target : Path) (left : Nat) : Prop :=
  if Absolute target then parts root <+: (split target).foldl push []
  else ¬Beside root (arrives root [slash] (truncate left abs ++ slash :: target))

section

variable {root cwd : Path} (isRoot : Canonical root) (notTop : root ≠ [slash])
include isRoot notTop

theorem exists_root : ∃ front name, (∀ component ∈ front, Plain component) ∧ Plain name ∧
    parts root = front ++ [name] ∧ root = render (front ++ [name]) := by
  rcases isRoot with ⟨components, plain, rfl⟩
  rcases eq_nil_or_concat' components with rfl | ⟨front, name, rfl⟩
  · exact absurd rfl notTop
  · rw [forall_mem_append, forall_mem_singleton] at plain
    exact ⟨front, name, plain.1, plain.2,
      parts_render (forall_mem_append.mpr ⟨plain.1, forall_mem_singleton.mpr plain.2⟩), rfl⟩

/-- The path before the comparison, as text, is the one that the names make. -/
theorem rawPath_eq (isCwd : Canonical cwd) (path : Path) :
    (∀ component ∈ arrives root cwd path, Plain component) ∧
      rawPath root cwd path = render (arrives root cwd path) := by
  rcases exists_root isRoot notTop with ⟨front, name, plainFront, plainName, isParts, isText⟩
  have names : (split root).foldl push [] = parts root := by
    rw [isParts, isText]
    exact foldl_render (forall_mem_append.mpr ⟨plainFront, forall_mem_singleton.mpr plainName⟩)
  rw [rawPath]
  split
  next absolute =>
    have kept : root.rdropWhile (· = slash) = root := by
      rw [isText, render_rdropWhile plainName]
    simp only [kept]
    have isArrival : arrives root cwd path =
        (split (root ++ slash :: path.dropWhile (· = slash))).foldl push [] := by
      rw [arrives, if_pos absolute, split_join, foldl_append, names, foldl_split_dropWhile]
    rw [isArrival]
    refine ⟨plain_kept _, ?_⟩
    split
    next empty =>
      rw [empty, split_join, foldl_append, names, isParts]
      exact isText
    next => rfl
  next relative =>
    rcases isCwd with ⟨components, plain, rfl⟩
    have isArrival : arrives root (render components) path =
        (split (render components ++ slash :: path)).foldl push [] := by
      rw [arrives, if_neg relative, split_join, foldl_append, foldl_render plain,
        parts_render plain]
    rw [isArrival]
    refine ⟨plain_kept _, ?_⟩
    split
    next ends =>
      rcases eq_nil_or_concat' components with rfl | ⟨others, last, rfl⟩
      · rfl
      · rw [forall_mem_append, forall_mem_singleton] at plain
        exact absurd ends (getLast_render plain.2)
    next => rfl

omit isRoot notTop in
theorem beside_iff {front names : List Path} {name : Path}
    (isParts : parts root = front ++ [name]) :
    Beside root names ↔ ∃ extra rest, extra ≠ [] ∧ names = front ++ (name ++ extra) :: rest := by
  constructor
  · rintro ⟨others, last, extra, rest, same, more, isNames⟩
    rw [isParts] at same
    rcases append_inj_left' same rfl, append_inj_right' same rfl with ⟨rfl, isLast⟩
    cases isLast
    exact ⟨extra, rest, more, isNames⟩
  · rintro ⟨extra, rest, more, isNames⟩
    exact ⟨front, name, extra, rest, isParts, more, isNames⟩

/-- The comparison of texts takes exactly what is beside the root for a path below it. -/
theorem absPath_below_iff (isCwd : Canonical cwd) (path : Path) :
    Below root (absPath root cwd path) ↔ ¬Beside root (arrives root cwd path) := by
  rcases exists_root isRoot notTop with ⟨front, name, plainFront, plainName, isParts, isText⟩
  rcases rawPath_eq isRoot notTop isCwd path with ⟨plain, isRaw⟩
  have starts := render_prefix_iff plainFront plainName plain
  rw [← isText] at starts
  rw [absPath, isRaw, beside_iff isParts]
  by_cases inside : root <+: render (arrives root cwd path)
  · rw [if_neg fun outside => outside.2 inside, Below, parts_render plain, isParts]
    rcases starts.mp inside with ⟨extra, rest, isArrival⟩
    rw [isArrival, prefix_append_right_inj]
    constructor
    · rintro below ⟨other, _, more, same⟩
      have isName := (cons.inj (append_cancel_left same)).1
      rw [append_cancel_left isName, cons_prefix_cons] at below
      exact more (self_eq_append_right.mp below.1)
    · intro exactly
      have none : extra = [] := by
        by_contra more
        exact exactly ⟨extra, rest, more, rfl⟩
      simp [none]
  · rw [if_pos ⟨notTop, inside⟩]
    refine iff_of_true prefix_rfl ?_
    rintro ⟨extra, rest, _, isArrival⟩
    exact inside (starts.mpr ⟨extra, rest, isArrival⟩)

theorem nextPath_below_iff (abs target : Path) (left : Nat) :
    Below root (nextPath root abs target left) ↔ Harmless root abs target left := by
  rw [nextPath, Harmless]
  split
  next => rw [Below, parts_canonicalize]
  next => exact absPath_below_iff isRoot notTop ⟨[], by simp, rfl⟩ _

end

variable {Ino : Type}

/-- With a canonical root other than `/`, a path stays below the root exactly if it does not lead
beside it, and a link leads below it exactly if it is harmless. Then what is found is found below
the root. -/
theorem resolution_confined (tree : Tree Ino) {root cwd : Path} (isRoot : Canonical root)
    (notTop : root ≠ [slash]) (isCwd : Canonical cwd) (path : Path) (followLast : Bool)
    (fuel : Nat) :
    (Below root (absPath root cwd path) ↔ ¬Beside root (arrives root cwd path)) ∧
    (∀ abs target left,
      Below root (nextPath root abs target left) ↔ Harmless root abs target left) ∧
    (¬Beside root (arrives root cwd path) →
      (∀ {count abs target left}, count + 1 < fuel →
        tree.Reaches (nextPath root) followLast (absPath root cwd path) count abs →
        tree.look followLast abs = .ok (.link target left) → Harmless root abs target left) →
      ∀ {ino}, tree.resolveWith (nextPath root) followLast fuel (absPath root cwd path) =
        .ok ino → ∃ last, Below root last ∧ tree.look followLast last = .ok (.found ino)) := by
  have below := absPath_below_iff isRoot notTop isCwd path
  refine ⟨below, nextPath_below_iff isRoot notTop, ?_⟩
  intro inside harmless ino done
  rcases Tree.resolveWith_ok fuel .start done with ⟨number, last, early, reaches, found⟩
  refine ⟨last, ?_, found⟩
  rw [Nat.zero_add] at early
  apply reaches.invariant (below.mpr inside) _ early
  intro count abs target left early earlier _ isLink
  exact (nextPath_below_iff isRoot notTop abs target left).mpr (harmless early earlier isLink)

/-- A directory `/d` with a link `l` to its file `/d/e`. -/
def inner : Tree Nat where
  mounts := [([47], .ok 0)]
  lookup := fun ino name =>
    if ino = 0 then .ok 1
    else if ino = 1 then .ok (if name = [108] then 2 else 3) else .error .enoent
  readlink := fun ino => if ino = 2 then some (.ok [47, 100, 47, 101]) else none

/-- The one link that `../d/l` meets with the root `/d`. -/
theorem inner_link {count left : Nat} {target : Path}
    (reaches : inner.Reaches (nextPath [47, 100]) true [47, 100, 47, 108] count abs)
    (isLink : inner.look true abs = .ok (.link target left)) :
    target = [47, 100, 47, 101] ∧ left = 1 := by
  have first : inner.look true [47, 100, 47, 108] = .ok (.link [47, 100, 47, 101] 1) := rfl
  have two : abs = [47, 100, 47, 108] ∨ abs = [47, 100, 47, 101] := by
    apply reaches.invariant (.inl rfl) _ (Nat.lt_succ_self count)
    rintro _ _ _ _ _ _ (rfl | rfl) isLink
    · cases first.symm.trans isLink
      exact .inr rfl
    · cases isLink
  rcases two with rfl | rfl
  · cases first.symm.trans isLink
    exact ⟨rfl, rfl⟩
  · cases isLink

/-- From `/d` the path `../d/l` leads to the file. -/
theorem resolution_confined_inner :
    Below [47, 100] (absPath [47, 100] [47, 100] [46, 46, 47, 100, 47, 108]) ∧
      inner.resolveWith (nextPath [47, 100]) true 41 [47, 100, 47, 108] = .ok 3 ∧
      ∃ last, Below [47, 100] last ∧ inner.look true last = .ok (.found 3) := by
  have canonical : Canonical [47, 100] := ⟨_, plain_kept [47, 100], rfl⟩
  rcases resolution_confined inner canonical (by decide) canonical [46, 46, 47, 100, 47, 108] true
    41 with ⟨below, _, confined⟩
  have isParts : parts [47, 100] = [] ++ [[100]] := rfl
  have inside : ¬Beside [47, 100] (arrives [47, 100] [47, 100] [46, 46, 47, 100, 47, 108]) := by
    rw [beside_iff isParts]
    rintro ⟨extra, rest, more, names⟩
    exact more (self_eq_append_right.mp (cons.inj names).1)
  refine ⟨below.mpr inside, rfl, confined inside ?_ rfl⟩
  intro count abs target left _ reaches isLink
  rw [(inner_link reaches isLink).1]
  exact (by decide : parts [47, 100] <+: (split [47, 100, 47, 101]).foldl push [])

/-- With the root `/d` the path `../d2` leads to `/d2`. -/
theorem absPath_escapes : ¬Below [47, 100] (absPath [47, 100] [47, 100] [46, 46, 47, 100, 50]) := by
  rw [Below]
  decide

/-! ## Links -/

/-- The target in the place of the link, and behind it the components that are left. -/
def replaced (abs target : Path) (left : Nat) : Path :=
  canonicalize ((if Absolute target then target else truncate left abs ++ slash :: target) ++
    abs.drop (truncate (left - 1) abs).length)

/-- The link is the last component, and it is an absolute one if the process has a root. -/
def Straight (root target : Path) (left : Nat) : Prop :=
  left = 1 ∧ (Absolute target ∨ root = [slash])

theorem absolute_canonicalize (path : Path) : Absolute (canonicalize path) := by
  rw [canonicalize]
  generalize (split path).foldl push [] = kept
  cases kept with
  | nil | cons first rest => rfl

theorem absolute_absPath (cwd path : Path) : Absolute (absPath [slash] cwd path) := by
  simp only [absPath, rawPath, ne_eq, not_true_eq_false, false_and, if_false, if_true]
  split <;> exact absolute_canonicalize _

theorem absolute_truncate (absolute : Absolute abs) (rest : Path) :
    Absolute (truncate 1 abs ++ slash :: rest) := by
  have part : truncate 1 abs <+: abs := by
    simp only [truncate]
    split
    next => exact (List.dropLast_prefix _).trans (List.rdropWhile_prefix _ _)
    next => exact List.prefix_rfl
  cases shorter : truncate 1 abs with
  | nil => rfl
  | cons first later =>
    rw [shorter] at part
    rcases part with ⟨tail, rfl⟩
    exact absolute

theorem nextPath_eq_replaced {root target : Path} {left : Nat}
    (absolute : root = [slash] → Absolute abs) (straight : Straight root target left) :
    nextPath root abs target left = replaced abs target left := by
  rcases straight with ⟨rfl, either⟩
  rw [replaced, Nat.sub_self, truncate, List.drop_length, List.append_nil]
  rcases either with isAbsolute | rfl
  · rw [nextPath, if_pos isAbsolute, if_pos isAbsolute]
  · rw [nextPath, absPath, rawPath, if_pos (absolute_truncate (absolute rfl) target)]
    split <;> simp

/-- If each link that is met is straight, then a link is replaced by its target and the resolution
goes on with what is behind it. A chain of more than 40 links is an error. -/
theorem resolveInode_law (tree : Tree Ino) (root cwd path : Path) :
    ((∀ {count abs target left}, count + 1 < 41 →
        tree.Reaches (nextPath root) true (absPath root cwd path) count abs →
        tree.look true abs = .ok (.link target left) → Straight root target left) →
      tree.resolveInode root cwd path =
        tree.resolveWith replaced true 41 (absPath root cwd path)) ∧
    ∀ chain : Nat → Path, chain 0 = absPath root cwd path →
      (∀ index < 41, ∃ target left, tree.look true (chain index) = .ok (.link target left) ∧
        chain (index + 1) = nextPath root (chain index) target left) →
      tree.resolveInode root cwd path = .error .eloop := by
  constructor
  · intro straight
    apply Tree.resolveWith_congr _ 41 (Nat.zero_add 41) .start
    intro count abs target left early reaches isLink
    apply nextPath_eq_replaced _ (straight early reaches isLink)
    rintro rfl
    apply reaches.invariant (absolute_absPath cwd path) _ (Nat.lt_succ_self count)
    intro _ _ target _ _ _ _ _
    rw [nextPath]
    split
    next => exact absolute_canonicalize target
    next => exact absolute_absPath _ _
  · intro chain first links
    rw [Tree.resolveInode, ← first]
    exact Tree.resolveWith_eloop 41 links

/-- From `/d` with the root `/d` the path `l` is the file that the link stands for. -/
theorem resolveInode_law_inner : inner.resolveInode [47, 100] [47, 100] [108] =
    inner.resolveWith replaced true 41 [47, 100, 47, 108] ∧
      inner.resolveInode [47, 100] [47, 100] [108] = .ok 3 := by
  refine ⟨(resolveInode_law inner [47, 100] [47, 100] [108]).1 ?_, rfl⟩
  intro count abs target left _ reaches isLink
  rcases inner_link reaches isLink with ⟨rfl, rfl⟩
  exact ⟨rfl, .inl rfl⟩

/-- A link `/l` to the directory `/d` with a file `f`. -/
def linked : Tree Nat where
  mounts := [([47], .ok 0)]
  lookup := fun ino name =>
    if ino = 0 then .ok (if name = [108] then 1 else 2)
    else if ino = 2 then .ok 3 else .error .enoent
  readlink := fun ino => if ino = 1 then some (.ok [47, 100]) else none

/-- What is behind a link is not looked up: `/l/f` is the directory. -/
theorem resolveInode_stops : linked.resolveInode [47] [47] [47, 108, 47, 102] = .ok 2 ∧
    linked.resolveWith replaced true 41 (absPath [47] [47] [47, 108, 47, 102]) = .ok 3 := by
  decide

end Qunix.Vfs
