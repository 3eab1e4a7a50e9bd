import Mathlib.Logic.Function.Basic
import Mathlib.Logic.Relation

/-! # Graphs with named edges

Every node has at most one edge of each name. What is reached from a root is followed
through the edits of single edges.
-/

namespace Qunix.Foundation.NamedGraph

variable {Node Name : Type} [DecidableEq Node] [DecidableEq Name]

def Edge (entry : Node → Name → Option Node) (source target : Node) : Prop :=
  ∃ name, entry source name = some target

def Reached (entry : Node → Name → Option Node) (root node : Node) : Prop :=
  Relation.ReflTransGen (Edge entry) root node

/-- Point one edge somewhere else, or nowhere. -/
def redirect (entry : Node → Name → Option Node) (source : Node) (name : Name)
    (target : Option Node) (node : Node) (other : Name) : Option Node :=
  if node = source ∧ other = name then target else entry node other

variable {entry : Node → Name → Option Node} {root source node target : Node} {name other : Name}

variable {goal : Option Node}

@[simp] theorem redirect_same : redirect entry source name goal source name = goal :=
  if_pos ⟨rfl, rfl⟩

theorem redirect_other (different : ¬(node = source ∧ other = name)) :
    redirect entry source name goal node other = entry node other :=
  if_neg different

theorem of_redirect (isEdge : redirect entry source name goal node other = some target) :
    goal = some target ∨ entry node other = some target := by
  by_cases same : node = source ∧ other = name
  · rw [redirect, if_pos same] at isEdge
    exact .inl isEdge
  · rw [redirect_other same] at isEdge
    exact .inr isEdge

/-! ## One name for each node -/

def Unshared (entry : Node → Name → Option Node) : Prop :=
  ∀ first second name other target, entry first name = some target →
    entry second other = some target → first = second ∧ name = other

theorem of_remove (isEdge : redirect entry source name none node other = some target) :
    entry node other = some target :=
  (of_redirect isEdge).resolve_left (by simp)

theorem Unshared.remove (unshared : Unshared entry) :
    Unshared (redirect entry source name none) := by
  intro first second label other target isFirst isSecond
  exact unshared _ _ _ _ target (of_remove isFirst) (of_remove isSecond)

theorem Unshared.unnamed (unshared : Unshared entry) (isEdge : entry source name = some target) :
    redirect entry source name none node other ≠ some target := by
  intro named
  have same := unshared _ _ _ _ _ (of_remove named) isEdge
  rw [redirect, if_pos same] at named
  cases named

theorem Unshared.add (unshared : Unshared entry)
    (unnamed : ∀ node other, entry node other ≠ some target) :
    Unshared (redirect entry source name (some target)) := by
  -- An edge to the new end is the new edge, and every other edge is an old one.
  have newEdge : ∀ node other, redirect entry source name (some target) node other = some target →
      node = source ∧ other = name := by
    intro node other isEdge
    by_contra different
    rw [redirect_other different] at isEdge
    exact unnamed node other isEdge
  have oldEdge : ∀ node other last, last ≠ target →
      redirect entry source name (some target) node other = some last →
      entry node other = some last := by
    intro node other last different isEdge
    exact (of_redirect isEdge).resolve_left fun same => different (Option.some.inj same).symm
  intro first second label other last isFirst isSecond
  by_cases same : last = target
  · subst same
    have firstNew := newEdge _ _ isFirst
    have secondNew := newEdge _ _ isSecond
    exact ⟨firstNew.1.trans secondNew.1.symm, firstNew.2.trans secondNew.2.symm⟩
  · exact unshared _ _ _ _ last (oldEdge _ _ _ same isFirst) (oldEdge _ _ _ same isSecond)

/-! ## Reachability -/

theorem Reached.add (reached : Reached entry root node) (unused : entry source name = none)
    {goal : Option Node} : Reached (redirect entry source name goal) root node := by
  refine Relation.ReflTransGen.mono ?_ _ _ reached
  rintro first second ⟨other, isEdge⟩
  refine ⟨other, ?_⟩
  rw [redirect_other, isEdge]
  rintro ⟨rfl, rfl⟩
  rw [unused] at isEdge
  cases isEdge

theorem Reached.added (reached : Reached entry root source) (unused : entry source name = none) :
    Reached (redirect entry source name (some target)) root target :=
  Relation.ReflTransGen.tail (reached.add unused) ⟨name, redirect_same⟩

/-- An edge to a leaf is taken away: only the leaf is lost. -/
theorem Reached.remove_leaf (reached : Reached entry root node)
    (isEdge : entry source name = some target) (leaf : ∀ other, entry target other = none) :
    node = target ∨ Reached (redirect entry source name none) root node := by
  induction reached with
  | refl => exact .inr .refl
  | tail _ step induction =>
    rename_i middle last _
    rcases step with ⟨other, stepEdge⟩
    rcases induction with isTarget | stays
    · rw [isTarget, leaf] at stepEdge
      cases stepEdge
    by_cases same : middle = source ∧ other = name
    · rcases same with ⟨rfl, rfl⟩
      rw [isEdge] at stepEdge
      cases stepEdge
      exact .inl rfl
    · exact .inr (.tail stays ⟨other, (redirect_other same).trans stepEdge⟩)

/-- Without an edge every node that was reached is still reached, or it is reached from
where the edge led. -/
theorem Reached.remove (reached : Reached entry root node)
    (isEdge : entry source name = some target) :
    Reached (redirect entry source name none) root node ∨
      Reached (redirect entry source name none) target node := by
  induction reached with
  | refl => exact .inl .refl
  | tail _ step induction =>
    rename_i middle last _
    rcases step with ⟨other, stepEdge⟩
    by_cases same : middle = source ∧ other = name
    · rcases same with ⟨rfl, rfl⟩
      rw [isEdge] at stepEdge
      cases stepEdge
      exact .inr .refl
    · have kept : Edge (redirect entry source name none) middle last :=
        ⟨other, (redirect_other same).trans stepEdge⟩
      rcases induction with fromRoot | fromTarget
      · exact .inl (.tail fromRoot kept)
      · exact .inr (.tail fromTarget kept)

theorem Reached.of_remove (reached : Reached (redirect entry source name none) root node) :
    Reached entry root node := by
  refine Relation.ReflTransGen.mono ?_ _ _ reached
  rintro first second ⟨other, isEdge⟩
  exact ⟨other, NamedGraph.of_remove isEdge⟩

/-- An edge is moved to a node that is not below its end. -/
theorem Reached.move (isEdge : entry source name = some target) {place : Node} {label : Name}
    (placeReached : Reached entry root place) (notBelow : ¬Reached entry target place)
    (unused : redirect entry source name none place label = none)
    (nodeReached : Reached entry root node) :
    Reached (redirect (redirect entry source name none) place label (some target)) root node := by
  have placeStays : Reached (redirect entry source name none) root place :=
    (placeReached.remove isEdge).resolve_right fun below => notBelow below.of_remove
  rcases nodeReached.remove isEdge with fromRoot | fromTarget
  · exact fromRoot.add unused
  · exact (placeStays.added unused).trans (fromTarget.add unused)

end Qunix.Foundation.NamedGraph
