import Mathlib.Algebra.Ring.Nat
import AgencyNode.ChampRefinement

/-!
# champ_iterator

The iterator keeps the path to the node it stands on and the entries of that node
it has not passed yet.  `remaining` is what is left for it to visit: those
entries, the children of the node, and the siblings behind every node of the
path.  Every move of the iterator keeps the remaining entries as they are, and an
increment takes the first of them away.
-/

namespace AgencyNode

open Lib

namespace Hamts

open ImmerMap (maxDepth)
open NodeT

variable {T : Type}

/-- `path_`: the current node, the siblings behind it, and the path above. -/
inductive PathT (T : Type) : Nat → Type
  | root (node : NodeT T maxDepth) : PathT T maxDepth
  | child
      {levels : Nat}
      (parents : PathT T (levels + 1))
      (node : NodeT T levels)
      (behind : List (NodeT T levels)) : PathT T levels

/-- `*path_[depth_]`. -/
def PathT.node : {levels : Nat} → PathT T levels → NodeT T levels
  | _, .root node => node
  | _, .child _ node _ => node

@[simp] theorem PathT.node_root (node : NodeT T maxDepth) :
    (PathT.root node).node = node := rfl

@[simp] theorem PathT.node_child
    {levels : Nat}
    (parents : PathT T (levels + 1))
    (node : NodeT T levels)
    (behind : List (NodeT T levels)) :
    (PathT.child parents node behind).node = node := rfl

/-- `champ_iterator`; `cur` lists the entries from `cur_` up to `end_`. -/
structure ChampIterator (T : Type) where
  levels : Nat
  path : PathT T levels
  cur : List T

namespace ChampIterator

/-- The entries of a node the iterator steps on; it keeps `cur` where it has none. -/
def enter : {levels : Nat} → NodeT T levels → List T → List T
  | 0, child, _ => child.collisions
  | _ + 1, child, cur => if child.datamap ≠ 0#32 then child.values else cur

/--
The loop `while (step_down()) if (cur_ != end_) return`; the flag tells whether
it has returned.
-/
def stepsDown :
    (levels : Nat) → PathT T levels → List T → ChampIterator T × Bool
  | 0, path, cur => (⟨0, path, cur⟩, false)
  | levels + 1, path, cur =>
      if path.node.nodemap ≠ 0#32 then
        match path.node.children with
        | child :: behind =>
            let path := PathT.child path child behind
            let cur := enter child cur
            if cur.isEmpty then stepsDown levels path cur
            else (⟨levels, path, cur⟩, true)
        | [] => (⟨levels + 1, path, cur⟩, false)
      else
        (⟨levels + 1, path, cur⟩, false)

/-- `step_right`, with the value it returns. -/
def stepRight : {levels : Nat} → PathT T levels → List T → ChampIterator T × Bool
  | _, .root node, cur => (⟨maxDepth, .root node, cur⟩, false)
  | levels, .child parents _ (next :: behind), cur =>
      (⟨levels, .child parents next behind, enter next cur⟩, true)
  | _, .child parents _ [], cur => stepRight parents cur

/-! ## The work that is left -/

/-- The nodes of a subtree. -/
def nodeCount : (levels : Nat) → NodeT T levels → Nat
  | 0, _ => 1
  | levels + 1, node => 1 + (node.children.map (nodeCount levels)).sum

/-- The nodes behind the nodes of a path. -/
def behindCount : {levels : Nat} → PathT T levels → Nat
  | _, .root _ => 0
  | levels, .child parents _ behind =>
      (behind.map (nodeCount levels)).sum + behindCount parents

/-- The nodes the iterator has not stepped on yet. -/
def pending (it : ChampIterator T) : Nat :=
  nodeCount it.levels it.path.node - 1 + behindCount it.path

theorem nodeCount_pos
    (levels : Nat)
    (node : NodeT T levels) :
    0 < nodeCount levels node := by
  cases levels with
  | zero => exact Nat.one_pos
  | succ levels =>
      rw [nodeCount]
      omega

theorem pending_stepsDown
    (levels : Nat)
    (path : PathT T levels)
    (cur : List T) :
    (stepsDown levels path cur).1.pending ≤ (⟨levels, path, cur⟩ : ChampIterator T).pending := by
  induction levels generalizing cur with
  | zero =>
      exact Nat.le_refl _
  | succ levels ih =>
      rw [stepsDown]
      by_cases hnodemap : path.node.nodemap ≠ 0#32
      · rw [if_pos hnodemap]
        cases hchildren : path.node.children with
        | nil =>
            exact Nat.le_refl _
        | cons child behind =>
            have hdown : (⟨levels, .child path child behind, enter child cur⟩ :
                ChampIterator T).pending ≤
                  (⟨levels + 1, path, cur⟩ : ChampIterator T).pending := by
              have := nodeCount_pos levels child
              simp only [pending, PathT.node_child, behindCount, nodeCount, hchildren,
                List.map_cons, List.sum_cons]
              omega
            dsimp only
            split
            · exact Nat.le_trans (ih _ _) hdown
            · exact hdown
      · have hstay (p q : ChampIterator T × Bool) :
            (if path.node.nodemap ≠ 0#32 then p else q) = q := if_neg hnodemap
        exact Nat.le_of_eq (congrArg (fun p => p.1.pending) (hstay _ _))

theorem pending_stepRight
    {levels : Nat}
    (path : PathT T levels)
    (cur : List T)
    (h : (stepRight path cur).2 = true) :
    (stepRight path cur).1.pending < behindCount path := by
  induction path with
  | root node =>
      cases h
  | @child levels parents node behind ih =>
      cases behind with
      | nil =>
          rw [stepRight] at h ⊢
          have := ih h
          simpa [behindCount] using this
      | cons next behind =>
          have := nodeCount_pos levels next
          simp only [stepRight, pending, PathT.node_child, behindCount, List.map_cons,
            List.sum_cons]
          omega

/-- `ensure_valid_`. -/
def ensureValid (it : ChampIterator T) : ChampIterator T :=
  if it.cur.isEmpty then
    let down := stepsDown it.levels it.path it.cur
    if down.2 then down.1
    else
      let right := stepRight down.1.path down.1.cur
      if right.2 = true then ensureValid right.1
      else { right.1 with cur := [] }
  else it
termination_by it.pending
decreasing_by
  rename_i _ _ hright
  have hdown := pending_stepsDown it.levels it.path it.cur
  have hlt := pending_stepRight _ _ hright
  refine Nat.lt_of_lt_of_le hlt (Nat.le_trans ?_ hdown)
  exact Nat.le_add_left _ _

/-- `begin()`: the constructor on a tree. -/
def begin (root : NodeT T maxDepth) : ChampIterator T :=
  ensureValid ⟨maxDepth, .root root, enter root []⟩

/-- `increment`. -/
def increment (it : ChampIterator T) : ChampIterator T :=
  ensureValid { it with cur := it.cur.tail }

/-! ## The entries that are left -/

/-- The entries of a subtree, chunk by chunk. -/
def elements (levels : Nat) (node : NodeT T levels) : List T :=
  (forEachChunk levels node).flatten

/-- The entries below the children of a node. -/
def belowChildren : {levels : Nat} → NodeT T levels → List T
  | 0, _ => []
  | levels + 1, node =>
      if node.nodemap = 0#32 then [] else node.children.flatMap (elements levels)

/-- The entries behind the nodes of a path. -/
def behindPath : {levels : Nat} → PathT T levels → List T
  | _, .root _ => []
  | levels, .child parents _ behind =>
      behind.flatMap (elements levels) ++ behindPath parents

/-- The entries the iterator has not passed yet. -/
def remaining (it : ChampIterator T) : List T :=
  it.cur ++ (belowChildren it.path.node ++ behindPath it.path)

theorem elements_eq
    {levels : Nat}
    (node : NodeT T levels) :
    elements levels node = enter node [] ++ belowChildren node := by
  cases levels with
  | zero =>
      rfl
  | succ levels =>
      have hvalues : (if node.datamap = 0#32 then [] else [node.values]).flatten =
          enter node [] := by
        by_cases hdatamap : node.datamap = 0#32 <;> simp [enter, hdatamap]
      have hchildren : (if node.nodemap = 0#32 then []
          else node.children.flatMap (forEachChunk levels)).flatten =
            belowChildren node := by
        by_cases hnodemap : node.nodemap = 0#32
        · rw [if_pos hnodemap, belowChildren, if_pos hnodemap]
          rfl
        · rw [if_neg hnodemap, belowChildren, if_neg hnodemap, ← List.flatMap_id,
            List.flatMap_assoc]
          apply List.flatMap_congr
          intro child _
          exact List.flatMap_id
      rw [elements, forEachChunk, List.flatten_append, hvalues, hchildren]

theorem remaining_stepsDown
    (levels : Nat)
    (path : PathT T levels) :
    remaining (stepsDown levels path []).1 =
        remaining (⟨levels, path, []⟩ : ChampIterator T) ∧
      ((stepsDown levels path []).2 = true → (stepsDown levels path []).1.cur ≠ []) ∧
      ((stepsDown levels path []).2 = false →
        (stepsDown levels path []).1.cur = [] ∧
          belowChildren (stepsDown levels path []).1.path.node = []) := by
  induction levels with
  | zero =>
      exact ⟨rfl, (fun h => by cases h), fun _ => ⟨rfl, rfl⟩⟩
  | succ levels ih =>
      rw [stepsDown]
      by_cases hnodemap : path.node.nodemap = 0#32
      · rw [if_neg (not_not_intro hnodemap)]
        refine ⟨rfl, (fun h => by cases h), fun _ => ⟨rfl, ?_⟩⟩
        change belowChildren path.node = []
        rw [belowChildren, if_pos hnodemap]
      · rw [if_pos hnodemap]
        have hbelow : belowChildren path.node =
            path.node.children.flatMap (elements levels) := by
          rw [belowChildren, if_neg hnodemap]
        cases hchildren : path.node.children with
        | nil =>
            rw [hchildren] at hbelow
            exact ⟨rfl, (fun h => by cases h), fun _ => ⟨rfl, hbelow⟩⟩
        | cons child behind =>
            rw [hchildren, List.flatMap_cons, elements_eq] at hbelow
            have hdown : remaining
                (⟨levels, .child path child behind, enter child []⟩ : ChampIterator T) =
                  remaining (⟨levels + 1, path, []⟩ : ChampIterator T) := by
              simp only [remaining, PathT.node_child, behindPath, hbelow,
                List.nil_append, List.append_assoc]
            dsimp only
            by_cases hcur : enter child [] = []
            · rw [hcur] at hdown ⊢
              rw [if_pos List.isEmpty_nil]
              obtain ⟨hremaining, htrue, hfalse⟩ := ih (.child path child behind)
              exact ⟨hremaining.trans hdown, htrue, hfalse⟩
            · rw [if_neg (by simpa using hcur)]
              exact ⟨hdown, fun _ => hcur, (fun h => by cases h)⟩

theorem remaining_stepRight
    {levels : Nat}
    (path : PathT T levels) :
    ((stepRight path []).2 = true →
        remaining (stepRight path []).1 = behindPath path) ∧
      ((stepRight path []).2 = false → behindPath path = []) := by
  induction path with
  | root node =>
      exact ⟨(fun h => by cases h), fun _ => rfl⟩
  | @child levels parents node behind ih =>
      cases behind with
      | nil =>
          exact ih
      | cons next behind =>
          refine ⟨fun _ => ?_, (fun h => by cases h)⟩
          simp only [stepRight, remaining, PathT.node_child, behindPath,
            List.flatMap_cons, elements_eq next, List.append_assoc]

/-- `ensure_valid_` stops at the next entry, or at the end if there is none. -/
theorem remaining_ensureValid
    (it : ChampIterator T) :
    ((ensureValid it).cur ≠ [] ∧ remaining (ensureValid it) = remaining it) ∨
      (ensureValid it).cur = [] ∧ remaining it = [] := by
  induction it using ensureValid.induct with
  | case1 it hempty down hdown =>
      obtain ⟨levels, path, cur⟩ := it
      obtain rfl := List.isEmpty_iff.mp hempty
      obtain ⟨hremaining, htrue, _⟩ := remaining_stepsDown levels path
      rw [ensureValid, if_pos hempty, if_pos hdown]
      exact .inl ⟨htrue hdown, hremaining⟩
  | case2 it hempty down hdown right hright ih =>
      obtain ⟨levels, path, cur⟩ := it
      obtain rfl := List.isEmpty_iff.mp hempty
      obtain ⟨hremaining, _, hfalse⟩ := remaining_stepsDown levels path
      obtain ⟨hcur, hbelow⟩ := hfalse (by simpa using hdown)
      rw [ensureValid, if_pos hempty, if_neg hdown, if_pos hright]
      have hstep : remaining right.1 = remaining (⟨levels, path, []⟩ : ChampIterator T) := by
        have hmove := (remaining_stepRight down.1.path).1
        rw [← hremaining]
        change remaining (stepRight down.1.path down.1.cur).1 = remaining down.1
        change (stepRight down.1.path down.1.cur).2 = true at hright
        rw [show down.1.cur = [] from hcur] at hright ⊢
        rw [hmove hright, remaining, show down.1.cur = [] from hcur,
          show belowChildren down.1.path.node = [] from hbelow]
        rfl
      rw [← hstep]
      exact ih
  | case3 it hempty down hdown right hright =>
      obtain ⟨levels, path, cur⟩ := it
      obtain rfl := List.isEmpty_iff.mp hempty
      obtain ⟨hremaining, _, hfalse⟩ := remaining_stepsDown levels path
      obtain ⟨hcur, hbelow⟩ := hfalse (by simpa using hdown)
      rw [ensureValid, if_pos hempty, if_neg hdown, if_neg hright]
      refine .inr ⟨rfl, ?_⟩
      have hmove := (remaining_stepRight down.1.path).2
      change ¬ (stepRight down.1.path down.1.cur).2 = true at hright
      rw [show down.1.cur = [] from hcur] at hright
      rw [← hremaining]
      change remaining down.1 = []
      rw [remaining, show down.1.cur = [] from hcur,
        show belowChildren down.1.path.node = [] from hbelow,
        hmove (by simpa using hright)]
      rfl
  | case4 it hempty =>
      rw [ensureValid, if_neg hempty]
      exact .inl ⟨by simpa using hempty, rfl⟩

/-- An increment passes one entry. -/
theorem remaining_increment
    {it : ChampIterator T}
    (h : it.cur ≠ []) :
    ((increment it).cur ≠ [] ∧ remaining (increment it) = (remaining it).tail) ∨
      (increment it).cur = [] ∧ (remaining it).tail = [] := by
  obtain ⟨levels, path, cur⟩ := it
  cases cur with
  | nil => exact absurd rfl h
  | cons e cur => exact remaining_ensureValid ⟨levels, path, cur⟩

/-- How many entries a range-for loop has yet to visit. -/
def left (it : ChampIterator T) : Nat :=
  if it.cur.isEmpty then 0 else (remaining it).length

theorem left_increment
    {it : ChampIterator T}
    (h : it.cur ≠ []) :
    left (increment it) < left it := by
  have hleft : left it = (remaining it).length := if_neg (by simpa using h)
  have hpos : 0 < (remaining it).length := by
    have := List.length_pos_iff.mpr h
    rw [remaining, List.length_append]
    omega
  rcases remaining_increment h with ⟨hcur, hremaining⟩ | ⟨hcur, _⟩
  · rw [left, if_neg (by simpa using hcur), hremaining, List.length_tail, hleft]
    omega
  · rw [left, if_pos (by simpa using hcur), hleft]
    exact hpos

/-- A range-for loop from the iterator on, until it compares equal to `end()`. -/
def visit (it : ChampIterator T) : List T :=
  match it with
  | ⟨_, _, []⟩ => []
  | ⟨levels, path, e :: cur⟩ => e :: visit (increment ⟨levels, path, e :: cur⟩)
termination_by left it
decreasing_by
  exact left_increment (List.cons_ne_nil _ _)

theorem visit_of_cur_eq_nil
    {it : ChampIterator T}
    (h : it.cur = []) :
    visit it = [] := by
  obtain ⟨levels, path, cur⟩ := it
  obtain rfl : cur = [] := h
  rw [visit]

theorem visit_eq
    {it : ChampIterator T}
    (h : it.cur ≠ []) :
    visit it = remaining it := by
  induction it using visit.induct with
  | case1 levels path =>
      exact absurd rfl h
  | case2 levels path e cur ih =>
      rw [visit]
      change _ = e :: (remaining ⟨levels, path, e :: cur⟩).tail
      congr 1
      rcases remaining_increment h with ⟨hnext, hremaining⟩ | ⟨hnext, htail⟩
      · rw [ih hnext, hremaining]
      · rw [htail, visit_of_cur_eq_nil hnext]

/-- From `begin()` on, the entries of the tree, chunk by chunk. -/
theorem visit_begin
    (root : NodeT T maxDepth) :
    visit (begin root) = (forEachChunk maxDepth root).flatten := by
  have hstart : remaining (⟨maxDepth, .root root, enter root []⟩ : ChampIterator T) =
      (forEachChunk maxDepth root).flatten := by
    change enter root [] ++ (belowChildren root ++ []) = elements maxDepth root
    rw [List.append_nil, elements_eq]
  rcases remaining_ensureValid ⟨maxDepth, .root root, enter root []⟩ with
    ⟨hcur, hremaining⟩ | ⟨hcur, hnil⟩
  · rw [begin, visit_eq hcur, hremaining, hstart]
  · rw [← hstart, hnil]
    exact visit_of_cur_eq_nil hcur

end ChampIterator

open ChampIterator

/--
**Iteration visits every entry once**, in the order `ImmerMap` gives, after any
run of writes.
-/
theorem visit_champ
    {V : Type}
    [StdHash]
    (writes : List (Write V))
    (m : Champ V)
    (h : runChamp Champ.empty writes = some m) :
    visit (begin m.root) = ImmerMap.iterate (runEntries [] writes) := by
  rw [visit_begin]
  exact ((champ_refines_entries writes).2 m h).2.2

/-- Three colliding keys, of which the first is erased again. -/
theorem visit_champ_collision :
    letI := constantHash
    let writes : List (Write Int) := [.set "a" 1, .set "b" 2, .set "c" 3, .erase "a"]
    ∃ m : Champ Int, runChamp Champ.empty writes = some m ∧
      visit (begin m.root) = ImmerMap.iterate (runEntries [] writes) ∧
        (visit (begin m.root)).length = 2 := by
  let := constantHash
  intro writes
  have hrun : (runChamp (Champ.empty : Champ Int) writes).isSome = true := by
    decide +kernel
  have hlength : (ImmerMap.iterate (runEntries [] writes)).length = 2 := by
    decide +kernel
  obtain ⟨m, hm⟩ := Option.isSome_iff_exists.mp hrun
  have hvisit := visit_champ writes m hm
  exact ⟨m, hm, hvisit, by rw [hvisit, hlength]⟩

end Hamts

end AgencyNode
