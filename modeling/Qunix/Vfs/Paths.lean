import Mathlib.Data.List.DropRight

/-! # Canonical paths

What `canonicalize` of `vfs/mod.rs` gives, how it composes, and how paths compare as texts and as
lists of names.
-/

namespace Qunix.Vfs

open List

abbrev Path := List UInt8

def slash : UInt8 := 47

/-- `split('/')`. -/
def split : Path → List Path
  | [] => [[]]
  | byte :: rest =>
    if byte = slash then [] :: split rest
    else
      match split rest with
      | [] => [[byte]]
      | first :: later => (byte :: first) :: later

def parts (path : Path) : List Path := (split path).filter (· ≠ [])

/-- One component, on the components that are kept. -/
def push (kept : List Path) (component : Path) : List Path :=
  if component = [] ∨ component = [46] then kept
  else if component = [46, 46] then kept.dropLast
  else kept ++ [component]

def render (kept : List Path) : Path :=
  if kept = [] then [slash] else kept.flatMap (slash :: ·)

def canonicalize (path : Path) : Path := render ((split path).foldl push [])

/-- Component by component. -/
def Below (root path : Path) : Prop := parts root <+: parts path

/-- A component that names an entry. -/
structure Plain (component : Path) : Prop where
  named : ¬(component = [] ∨ component = [46])
  notParent : component ≠ [46, 46]
  whole : slash ∉ component

def Canonical (path : Path) : Prop :=
  ∃ components, (∀ component ∈ components, Plain component) ∧ path = render components

theorem split_slash (path : Path) : split (slash :: path) = [] :: split path := if_pos rfl

/-- Bytes in front of the first component. -/
theorem split_append {front path first : Path} {later : List Path} (whole : slash ∉ front)
    (rest : split path = first :: later) : split (front ++ path) = (front ++ first) :: later := by
  induction front with
  | nil => exact rest
  | cons byte front induction =>
    rw [mem_cons, not_or] at whole
    rw [cons_append, split, if_neg (Ne.symm whole.1), induction whole.2]
    rfl

theorem exists_split (path : Path) : ∃ first later, split path = first :: later ∧
    slash ∉ first ∧ ∀ component ∈ later, slash ∉ component := by
  induction path with
  | nil => exact ⟨[], [], rfl, by simp⟩
  | cons byte path induction =>
    rcases induction with ⟨first, later, parts, whole, others⟩
    rw [split, parts]
    split
    next => exact ⟨[], _, rfl, by simp, by simpa [whole] using others⟩
    next other => exact ⟨byte :: first, later, rfl, by simp [whole, Ne.symm other], others⟩

theorem split_join (front path : Path) :
    split (front ++ slash :: path) = split front ++ split path := by
  induction front with
  | nil => exact split_slash path
  | cons byte front induction =>
    rcases exists_split front with ⟨first, later, parts, _⟩
    rw [cons_append, split, split, induction, parts]
    split
    next => rfl
    next => rfl

variable {components : List Path}

section

variable (plain : ∀ component ∈ components, Plain component)
include plain

theorem split_flatMap :
    split (components.flatMap (slash :: ·)) = [] :: components := by
  induction components with
  | nil => rfl
  | cons component rest induction =>
    rw [forall_mem_cons] at plain
    rw [flatMap_cons, cons_append, split_slash,
      split_append plain.1.whole (induction plain.2), append_nil]

theorem foldl_push (kept : List Path) :
    components.foldl push kept = kept ++ components := by
  induction components generalizing kept with
  | nil => simp
  | cons component rest induction =>
    rw [forall_mem_cons] at plain
    rw [foldl_cons, induction plain.2, push, if_neg plain.1.named, if_neg plain.1.notParent,
      append_assoc]
    rfl

/-- The components of a rendered path are pushed as they are. -/
theorem foldl_render :
    (split (render components)).foldl push [] = components := by
  rw [render]
  split
  next empty =>
    rw [empty]
    rfl
  next =>
    rw [split_flatMap plain]
    exact foldl_push plain []

end

theorem plain_foldl {kept : List Path} (whole : ∀ component ∈ components, slash ∉ component)
    (plain : ∀ component ∈ kept, Plain component) :
    ∀ component ∈ components.foldl push kept, Plain component := by
  induction components generalizing kept with
  | nil => exact plain
  | cons component rest induction =>
    rw [forall_mem_cons] at whole
    apply induction whole.2
    rw [push]
    split
    next => exact plain
    next named =>
      split
      next => exact fun other member => plain other (dropLast_subset _ member)
      next notParent =>
        exact forall_mem_append.mpr
          ⟨plain, forall_mem_singleton.mpr ⟨named, notParent, whole.1⟩⟩

theorem plain_kept (path : Path) : ∀ component ∈ (split path).foldl push [], Plain component := by
  rcases exists_split path with ⟨first, later, parts, whole⟩
  apply plain_foldl
  · rw [parts]
    exact forall_mem_cons.mpr whole
  · simp

theorem canonicalize_laws (path rest : Path) : Canonical (canonicalize path) ∧
    canonicalize (canonicalize path) = canonicalize path ∧
    canonicalize (path ++ slash :: rest) = canonicalize (canonicalize path ++ slash :: rest) := by
  have same := foldl_render (plain_kept path)
  refine ⟨⟨_, plain_kept path, rfl⟩, ?_, ?_⟩
  · rw [canonicalize, canonicalize, same]
  · simp only [canonicalize, split_join, foldl_append, same]

/-! ## Components -/

theorem parts_slash (path : Path) : parts (slash :: path) = parts path := by
  simp [parts, split_slash]

theorem parts_join (front path : Path) :
    parts (front ++ slash :: path) = parts front ++ parts (slash :: path) := by
  rw [parts_slash, parts, split_join, filter_append, parts, parts]

theorem parts_dropWhile (path : Path) : parts (path.dropWhile (· == slash)) = parts path := by
  induction path with
  | nil => rfl
  | cons byte path induction =>
    by_cases isSlash : byte = slash
    · simp [isSlash, induction, parts_slash]
    · simp [isSlash]

theorem parts_render (plain : ∀ component ∈ components, Plain component) :
    parts (render components) = components := by
  have kept : components.filter (· ≠ []) = components := by
    apply List.filter_eq_self.mpr
    intro component member
    simpa using fun empty => (plain component member).named (.inl empty)
  rw [parts, render]
  split
  next empty =>
    rw [empty]
    rfl
  next =>
    rw [split_flatMap plain]
    exact kept

theorem parts_canonicalize (path : Path) :
    parts (canonicalize path) = (split path).foldl push [] :=
  parts_render (plain_kept path)

/-- Leading slashes make no difference. -/
theorem foldl_split_dropWhile (kept : List Path) (path : Path) :
    (split (path.dropWhile (· = slash))).foldl push kept = (split path).foldl push kept := by
  induction path with
  | nil => rfl
  | cons byte path induction =>
    by_cases isSlash : byte = slash
    · simp [isSlash, induction, split_slash, push]
    · simp [isSlash]

/-! ## Names with a common beginning -/

variable {front : List Path} {name : Path}

/-- The text of a path starts with that of another one if the last name of that one is the
beginning of a name. -/
theorem render_prefix_iff (plainFront : ∀ component ∈ front, Plain component)
    (plainName : Plain name) (plain : ∀ component ∈ components, Plain component) :
    render (front ++ [name]) <+: render components ↔
      ∃ extra rest, components = front ++ (name ++ extra) :: rest := by
  have root : render (front ++ [name]) = front.flatMap (slash :: ·) ++ slash :: name := by
    simp [render]
  rw [root]
  constructor
  · rintro ⟨extra, whole⟩
    rcases exists_split extra with ⟨first, later, isExtra, _⟩
    have components : split (render components) = [] :: front ++ (name ++ first) :: later := by
      rw [← whole, append_assoc, cons_append, split_join, split_flatMap plainFront,
        split_append plainName.whole isExtra]
    rw [render] at components
    split at components
    next =>
      -- The path is `/`, and the name would be empty.
      have names := (cons.inj components).2
      rcases append_eq_singleton_iff.mp names.symm with ⟨_, isName⟩ | ⟨_, isName⟩
      · exact absurd (append_eq_nil_iff.mp (cons.inj isName).1).1 fun empty =>
          plainName.named (.inl empty)
      · cases isName
    next =>
      rw [split_flatMap plain] at components
      exact ⟨first, later, (cons.inj components).2⟩
  · rintro ⟨extra, rest, rfl⟩
    exact ⟨extra ++ rest.flatMap (slash :: ·), by simp [render]⟩

theorem getLast_render (plainName : Plain name) :
    (render (front ++ [name])).getLast? ≠ some slash := by
  intro ends
  have whole : render (front ++ [name]) = (front.flatMap (slash :: ·) ++ [slash]) ++ name := by
    simp [render]
  rw [whole, getLast?_append_of_ne_nil _ fun empty => plainName.named (.inl empty)] at ends
  exact plainName.whole (mem_of_getLast? ends)

theorem render_rdropWhile (plainName : Plain name) :
    (render (front ++ [name])).rdropWhile (· = slash) = render (front ++ [name]) := by
  apply rdropWhile_eq_self_iff.mpr
  intro nonempty isSlash
  apply @getLast_render front name plainName
  rw [getLast?_eq_some_getLast nonempty, decide_eq_true_eq.mp isSlash]

end Qunix.Vfs
