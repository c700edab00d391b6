import AgencyNode.Completeness
import AgencyNode.NodeOperations
import AgencyNode.Tree

/-!
# Deleting what is not there

`remove` and the operators that never create a node hand `nullptr` to
`node::set` where there is nothing at the path.  `node_object::set_impl` erases
a member that does not exist, which changes nothing.  Everywhere else the
`nullptr` is stored, together with the objects that lead to it.
-/

namespace AgencyNode

open Lib

variable {D : Type}

namespace Node

/-! ## The parent of the path -/

/-- What `get` finds is reached without the index `2 ^ 64 - 1`. -/
theorem indexUse_of_get
    {n m : Node D}
    {r : Path}
    (h : n.get r = some m) :
    IndexUseInBounds (some n) r := by
  induction r generalizing n with
  | nil =>
      trivial
  | cons head tail ih =>
      obtain ⟨child, hchild, hget⟩ := get_cons_eq_some h
      have hhead : ∀ l, some n = some (.array l) → IndexInBounds head := by
        intro l hl hindex
        cases hl
        have hsize : NodeArray.size l ≤ sizeTMax := by
          unfold NodeArray.size
          omega
        simp [childImpl, NodeArray.getImpl, hindex, hsize] at hchild
      refine ⟨hhead, ?_⟩
      have hcontainer : (nodeContainer D).child (some n) head = some child := by
        cases n with
        | array c =>
            rw [← hchild]
            exact (NodeArray.getImpl_eq (hhead c rfl)).symm
        | object c =>
            rw [← hchild]
            exact (NodeObject.getImpl_eq c head).symm
        | _ =>
            cases hchild
      rw [hcontainer]
      exact ih hget

theorem ParentIsObject.indexUse
    {n : Node D}
    {p : Path}
    (h : n.ParentIsObject p) :
    IndexUseInBounds (some n) p := by
  obtain ⟨r, key, members, rfl, hget⟩ := h
  have hr := indexUse_of_get hget
  refine indexUseInBounds_append_iff.mpr ⟨hr, ?_, trivial⟩
  intro l hl
  rw [← n.get_eq r hr, hget] at hl
  cases hl

/-! ## One level -/

/-- Only an object is left as it is when `nullptr` is written. -/
theorem isObject_of_put_none
    {c : NodePtr D}
    {key : String}
    (hc : ∀ m, c = some m → m.Complete)
    (h : NodePtr.Equal ((nodeContainer D).put c key none) c) :
    ∃ members, c = some (.object members) := by
  cases hshape : (nodeRep D).shapeOf c with
  | object members =>
      exact ⟨members, shapeOf_eq_object_iff.mp hshape⟩
  | leaf =>
      rw [put_leaf c key none hshape] at h
      cases c with
      | none =>
          cases h
      | some m =>
          have hm : (Node.object (NodeObject.ofMember key none)).Equal m :=
            NodePtr.equal_some_iff.mp h
          cases m with
          | object value =>
              exact ⟨value, rfl⟩
          | _ =>
              cases hm
  | array l =>
      have hl := shapeOf_eq_array_iff.mp hshape
      have helements := complete_array_iff.mp (hc _ hl)
      rw [hl] at h
      have hput : ((nodeRep D).putElement l key none).Equal (.array l) :=
        NodePtr.equal_some_iff.mp h
      unfold TreeRep.putElement at hput
      cases hkey : (nodeRep D).index key with
      | none =>
          rw [hkey] at hput
          cases hput
      | some i =>
          -- Element `i` is `nullptr` now, and it was not before.
          rw [hkey] at hput
          have hmap := equal_array_iff.mp hput
          have hlength : i < (padTo (nodeRep D).null l (i + 1)).length := by
            rw [length_padTo]
            omega
          have hnone := List.mem_map_of_mem (f := denotePtr)
            (List.mem_set hlength none)
          rw [hmap] at hnone
          obtain ⟨v, hv, hdenote⟩ := List.mem_map.mp hnone
          rw [denotePtr_eq_none.mp hdenote] at hv
          exact absurd (helements _ hv) not_completePtr_none

/-! ## Removing an absent path -/

/-- **Removing what is not there is a no-op below objects only.** -/
theorem remove_absent_iff
    {n : Node D}
    {p : Path}
    (hn : n.Complete)
    (hne : p ≠ [])
    (habsent : n.get p = none) :
    (∃ r, n.remove p = .ok (some r) ∧ r.Equal n) ↔ n.ParentIsObject p := by
  constructor
  · rintro ⟨m, hm, hequal⟩
    have huse : IndexUseInBounds (some n) p := by
      by_contra hnot
      rw [remove, n.set_of_not_indexUse p none hnot] at hm
      cases hm
    obtain ⟨r, key, rfl⟩ := (List.eq_nil_or_concat' p).resolve_left hne
    obtain ⟨hr, _⟩ := indexUseInBounds_append_iff.mp huse
    rw [remove, n.set_eq _ none huse] at hm
    have hm := Except.ok.inj hm
    -- The parent of the path is the same tree before and after the write.
    have hparent : NodePtr.Equal
        ((nodeContainer D).get (some m) r) ((nodeContainer D).get (some n) r) := by
      unfold NodePtr.Equal
      rw [denotePtr_get, denotePtr_get]
      exact congrArg (fun t => (treeRep D).container.get (some t) r) hequal
    rw [← hm, Container.get_set_append (nodeRep D).child_put_self,
      ← n.get_eq r hr] at hparent
    obtain ⟨members, hmembers⟩ :=
      isObject_of_put_none (fun x hx => hn.get hx) hparent
    exact ⟨r, key, members, rfl, hmembers⟩
  · intro hparent
    have huse := hparent.indexUse
    obtain ⟨m, hm, hset⟩ := n.set_eq_some p none huse hne
    refine ⟨m, hm, NodePtr.equal_some_iff.mp ?_⟩
    obtain ⟨r, key, members, rfl, hget⟩ := hparent
    obtain ⟨hr, _⟩ := indexUseInBounds_append_iff.mp huse
    have hmembers := hn.get hget
    rw [n.get_eq r hr] at hget
    rw [n.get_eq _ huse, Container.get_append, hget] at habsent
    -- The object has no such member, and erasing it leaves the object alone.
    have hfind : AssocMap.find members key = none := by
      cases hkey : AssocMap.find members key with
      | none =>
          rfl
      | some v =>
          have hv := complete_object_iff.mp hmembers _ (AssocMap.mem_of_find hkey)
          obtain ⟨x, rfl, _⟩ := hv.exists_node
          rw [Container.get_cons, ← NodeObject.getImpl_eq, NodeObject.getImpl,
            hkey] at habsent
          cases habsent
    have hput : (nodeContainer D).put (some (.object members)) key none =
        some (.object members) := by
      rw [← NodeObject.setImpl_eq]
      exact congrArg (fun m => some (Node.object m)) (AssocMap.erase_eq_self hfind)
    rw [hset, Container.set_append, hget, Container.set_cons, Container.set_nil,
      hput, ← hget]
    apply equal_set_get_self
    rw [hget]
    simp

/-! ## The operators that create no node -/

section Operators

variable [StdHash] [Double D]

/-- The updates at `p` that are declared to create nothing. -/
def shrinkingUpdates
    (n : Node D)
    (p : Path)
    (x : NodePtr D) : List (Exec (NodePtr D)) :=
  [n.remove p,
    n.transform [(p, removeOperator)],
    n.transform [(p, popOperator)],
    n.transform [(p, shiftOperator)],
    n.transform [(p, eraseOperator x)]]

/-- Where there is no node all of them write `nullptr`. -/
theorem shrinkingUpdates_absent
    {n : Node D}
    {p : Path}
    (habsent : n.get p = none)
    (x : NodePtr D) :
    ∀ update ∈ n.shrinkingUpdates p x, update = n.remove p := by
  have hstep : ∀ f : Transformation D, f none = .ok none →
      n.transform [(p, f)] = n.remove p := by
    intro f hf
    simp only [transform, List.foldlM_cons, List.foldlM_nil, transformStep,
      NodePtr.deref, habsent, hf, Exec.ok_bind, bind_pure, remove]
  intro update hupdate
  simp only [shrinkingUpdates, List.mem_cons, List.not_mem_nil, or_false] at hupdate
  rcases hupdate with rfl | rfl | rfl | rfl | rfl
  · rfl
  · exact hstep _ rfl
  · exact hstep _ rfl
  · exact hstep _ rfl
  · exact hstep _ rfl

/--
**Deleting or shrinking what is not there** leaves the tree as it is if and only
if the path leads to a member of an object that exists.
-/
theorem shrink_absent_iff
    (n : Node D)
    (p : Path)
    (x : NodePtr D)
    (hn : n.Complete)
    (hne : p ≠ [])
    (habsent : n.get p = none) :
    ∀ update ∈ n.shrinkingUpdates p x,
      (∃ r, update = .ok (some r) ∧ r.Equal n) ↔ n.ParentIsObject p := by
  intro update hupdate
  rw [shrinkingUpdates_absent habsent x update hupdate]
  exact remove_absent_iff hn hne habsent

end Operators

/-- A member that an object lacks, and one that would be below a number. -/
theorem shrink_absent_iff_member :
    letI := constantHash
    let n : Node Int :=
      .object [("b", some (.double 1)), ("a", some (.object [("c", some .null)]))]
    (∀ update ∈ n.shrinkingUpdates ["a", "x"] (some .null),
      ∃ r, update = .ok (some r) ∧ r.Equal n) ∧
    ∀ update ∈ n.shrinkingUpdates ["b", "x"] (some .null),
      ¬ ∃ r, update = .ok (some r) ∧ r.Equal n := by
  let := constantHash
  intro n
  have hn : n.Complete := ⟨trivial, ⟨trivial, trivial⟩, trivial⟩
  refine ⟨fun update hupdate => ?_, fun update hupdate h => ?_⟩
  · apply (shrink_absent_iff n ["a", "x"] (some .null) hn (by simp) rfl update hupdate).mpr
    exact ⟨["a"], "x", _, rfl, rfl⟩
  · obtain ⟨r, key, members, hpath, hget⟩ :=
      (shrink_absent_iff n ["b", "x"] (some .null) hn (by simp) rfl update hupdate).mp h
    obtain ⟨hr, _⟩ := List.append_inj' (show ["b"] ++ ["x"] = r ++ [key] from hpath) rfl
    rw [← hr] at hget
    cases hget

/-- Below a member that does not exist the way to the path is built. -/
theorem remove_absent_builds :
    ¬ ∀ (n : Node Int) (p : Path), n.Complete → p ≠ [] → n.get p = none →
      ∃ r, n.remove p = .ok (some r) ∧ r.Equal n := by
  intro h
  obtain ⟨r, hr, hequal⟩ := h (.object []) ["a", "b"] trivial (by simp) rfl
  have hbuilt : r =
      .object (NodeObject.ofMember "a" (nodeAtPath ["b"] none)) := by
    cases hr
    rfl
  rw [hbuilt] at hequal
  have hmember := equal_object_iff.mp hequal "a"
  cases hmember

end Node

end AgencyNode
