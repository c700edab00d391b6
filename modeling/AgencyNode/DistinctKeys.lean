import AgencyNode.NodeOverlay

/-!
# Objects with distinct keys

An `immer::map` has one entry for a key.  Nodes are kept as lists of entries
here, so this is an invariant: every object anywhere in a node lists every key
once.  Whatever the program builds a node with keeps it.
-/

namespace AgencyNode

open Lib

variable {D : Type}

namespace Node

mutual

/-- Every object in the node lists every key once. -/
def DistinctKeys : Node D → Prop
  | .array value => DistinctElements value
  | .object value => AssocMap.KeysNodup value ∧ DistinctMembers value
  | _ => True

def DistinctPtr : Option (Node D) → Prop
  | none => True
  | some n => DistinctKeys n

def DistinctElements : List (Option (Node D)) → Prop
  | [] => True
  | v :: value => DistinctPtr v ∧ DistinctElements value

def DistinctMembers : List (String × Option (Node D)) → Prop
  | [] => True
  | member :: value => DistinctMember member ∧ DistinctMembers value

def DistinctMember : String × Option (Node D) → Prop
  | (_, v) => DistinctPtr v

end

@[simp] theorem distinctPtr_none :
    DistinctPtr (none : NodePtr D) := by
  trivial

@[simp] theorem distinctPtr_some
    {n : Node D} :
    DistinctPtr (some n) ↔ n.DistinctKeys := by
  rfl

theorem distinctKeys_array_iff
    {value : NodeArray D} :
    (Node.array value).DistinctKeys ↔ ∀ v ∈ value, DistinctPtr v := by
  change DistinctElements value ↔ _
  induction value with
  | nil =>
      simp [DistinctElements]
  | cons v value ih =>
      simp [DistinctElements, ih]

theorem distinctMembers_iff
    {value : NodeObject D} :
    DistinctMembers value ↔ ∀ member ∈ value, DistinctPtr member.2 := by
  induction value with
  | nil =>
      simp [DistinctMembers]
  | cons member value ih =>
      obtain ⟨key, v⟩ := member
      rw [DistinctMembers, ih, List.forall_mem_cons]
      rfl

theorem distinctKeys_object_iff
    {value : NodeObject D} :
    (Node.object value).DistinctKeys ↔
      AssocMap.KeysNodup value ∧ ∀ member ∈ value, DistinctPtr member.2 := by
  rw [← distinctMembers_iff]
  rfl

section Members

variable {value : NodeObject D}

theorem DistinctKeys.keysNodup
    (h : (Node.object value).DistinctKeys) :
    AssocMap.KeysNodup value :=
  (distinctKeys_object_iff.mp h).1

theorem DistinctKeys.find
    (h : (Node.object value).DistinctKeys)
    {key : String}
    {v : NodePtr D}
    (hfind : AssocMap.find value key = some v) :
    DistinctPtr v :=
  (distinctKeys_object_iff.mp h).2 _ (AssocMap.mem_of_find hfind)

theorem DistinctKeys.getImpl_object
    (h : (Node.object value).DistinctKeys)
    (key : String) :
    DistinctPtr (NodeObject.getImpl value key) := by
  unfold NodeObject.getImpl
  cases hfind : AssocMap.find value key with
  | none =>
      exact distinctPtr_none
  | some v =>
      exact h.find hfind

theorem DistinctKeys.set_member
    (h : (Node.object value).DistinctKeys)
    (key : String)
    {v : NodePtr D}
    (hv : DistinctPtr v) :
    (Node.object (AssocMap.set value key v)).DistinctKeys := by
  rw [distinctKeys_object_iff] at h ⊢
  refine ⟨h.1.set key v, ?_⟩
  intro e he
  rcases AssocMap.mem_set.mp he with rfl | ⟨he, _⟩
  · exact hv
  · exact h.2 e he

theorem DistinctKeys.erase_member
    (h : (Node.object value).DistinctKeys)
    (key : String) :
    (Node.object (AssocMap.erase value key)).DistinctKeys := by
  rw [distinctKeys_object_iff] at h ⊢
  refine ⟨h.1.erase key, ?_⟩
  intro e he
  exact h.2 e (AssocMap.mem_erase.mp he).1

end Members

theorem distinctKeys_empty :
    (Node.object ([] : NodeObject D)).DistinctKeys := by
  rw [distinctKeys_object_iff]
  exact ⟨List.nodup_nil, by simp⟩

/-! ## Conversion from slices -/

mutual

/-- `from_slice` keeps the keys distinct, whatever the slice repeats. -/
theorem distinctKeys_ofJson :
    (s : Json D) → (ofJson s).DistinctKeys
  | .number _ => trivial
  | .string _ => trivial
  | .bool _ => trivial
  | .object members => distinctKeys_ofMembers members [] distinctKeys_empty
  | .array elements => distinctKeys_ofElements elements
  | .null => trivial

theorem distinctKeys_ofMembers :
    (members : List (String × Json D)) →
      (container : NodeObject D) →
        (Node.object container).DistinctKeys →
          (Node.object (ofMembers members container)).DistinctKeys
  | [], _, h => h
  | (_, s) :: members, _, h =>
      distinctKeys_ofMembers members _ (h.set_member _ (distinctKeys_ofJson s))

theorem distinctKeys_ofElements :
    (elements : List (Json D)) → (Node.array (ofElements elements)).DistinctKeys
  | [] => trivial
  | element :: elements =>
      ⟨distinctKeys_ofJson element, distinctKeys_ofElements elements⟩

end

/-! ## Writing along a path -/

theorem DistinctKeys.getImpl_array
    {value : NodeArray D}
    (h : (Node.array value).DistinctKeys)
    (key : String) :
    DistinctPtr (NodeArray.getImpl value key) := by
  rw [distinctKeys_array_iff] at h
  unfold NodeArray.getImpl
  split
  · split
    · exact distinctPtr_none
    · rename_i i _ _
      by_cases hi : i < value.length
      · rw [List.getD_eq_getElem _ _ hi]
        exact h _ (List.getElem_mem hi)
      · rw [List.getD_eq_default _ _ (Nat.not_lt.mp hi)]
        exact distinctPtr_none
  · exact distinctPtr_none

/-- What `get` finds has distinct keys. -/
theorem DistinctKeys.get
    {n : Node D}
    (h : n.DistinctKeys)
    (p : Path) :
    DistinctPtr (n.get p) := by
  induction p generalizing n with
  | nil =>
      rw [get_nil]
      exact h
  | cons head tail ih =>
      cases n with
      | array c =>
          have hchild := h.getImpl_array head
          simp only [Node.get]
          split
          · rename_i child hsome
            rw [hsome] at hchild
            exact ih hchild
          · exact distinctPtr_none
      | object c =>
          have hchild := h.getImpl_object head
          simp only [Node.get]
          split
          · rename_i child hsome
            rw [hsome] at hchild
            exact ih hchild
          · exact distinctPtr_none
      | _ =>
          exact distinctPtr_none

theorem distinctPtr_nodeAtPath
    (p : Path)
    {v : NodePtr D}
    (hv : DistinctPtr v) :
    DistinctPtr (nodeAtPath p v) := by
  induction p with
  | nil =>
      exact hv
  | cons head tail ih =>
      exact distinctKeys_empty.set_member head ih

theorem DistinctKeys.padLoop
    {index fuel : Nat}
    {value result : NodeArray D}
    (h : (Node.array value).DistinctKeys)
    (hresult : NodeArray.padLoop index fuel value = .ok result) :
    (Node.array result).DistinctKeys := by
  induction fuel generalizing value with
  | zero =>
      rw [NodeArray.padLoop] at hresult
      split at hresult
      · cases hresult
      · cases hresult
        exact h
  | succ fuel ih =>
      rw [NodeArray.padLoop] at hresult
      split at hresult
      · refine ih ?_ hresult
        rw [distinctKeys_array_iff] at h ⊢
        intro v hv
        rcases List.mem_append.mp hv with hv | hv
        · exact h v hv
        · rw [List.mem_singleton.mp hv]
          trivial
      · cases hresult
        exact h

theorem DistinctKeys.toMembers
    {value : NodeArray D}
    {result : NodeObject D}
    (h : (Node.array value).DistinctKeys)
    (hresult : (Node.object result).DistinctKeys)
    (i : Nat) :
    (Node.object (NodeArray.toMembers i value result)).DistinctKeys := by
  induction value generalizing i result with
  | nil =>
      exact hresult
  | cons v value ih =>
      rw [distinctKeys_array_iff, List.forall_mem_cons] at h
      refine ih ?_ (hresult.set_member _ h.1) (i + 1)
      rw [distinctKeys_array_iff]
      exact h.2

theorem DistinctKeys.setImpl_array
    {value : NodeArray D}
    {key : String}
    {v r : NodePtr D}
    (h : (Node.array value).DistinctKeys)
    (hv : DistinctPtr v)
    (hr : NodeArray.setImpl value key v = .ok r) :
    DistinctPtr r := by
  unfold NodeArray.setImpl at hr
  split at hr
  · rename_i index _
    obtain ⟨result, hresult, hr⟩ := Exec.bind_eq_ok.mp hr
    cases hr
    have hpadded := h.padLoop hresult
    rw [distinctPtr_some, distinctKeys_array_iff]
    rw [distinctKeys_array_iff] at hpadded
    intro w hw
    rcases List.mem_or_eq_of_mem_set hw with hw | rfl
    · exact hpadded w hw
    · exact hv
  · cases hr
    exact (h.toMembers distinctKeys_empty 0).set_member key hv

theorem DistinctKeys.setImpl_object
    {value : NodeObject D}
    (h : (Node.object value).DistinctKeys)
    (key : String)
    {v : NodePtr D}
    (hv : DistinctPtr v) :
    DistinctPtr (NodeObject.setImpl value key v) := by
  cases v with
  | none =>
      exact h.erase_member key
  | some m =>
      exact h.set_member key hv

/-- **`set` keeps the keys distinct.** -/
theorem DistinctKeys.set
    {n : Node D}
    {p : Path}
    {v x : NodePtr D}
    (h : n.DistinctKeys)
    (hv : DistinctPtr v)
    (hx : n.set p v = .ok x) :
    DistinctPtr x := by
  induction p generalizing n x with
  | nil =>
      cases n <;> cases hx <;> exact hv
  | cons head tail ih =>
      have hnew : ∀ child y : NodePtr D, DistinctPtr child →
          newChild child tail v = .ok y → DistinctPtr y := by
        intro child y hchild hy
        cases child with
        | none =>
            cases hy
            exact distinctPtr_nodeAtPath tail hv
        | some child =>
            exact ih hchild hy
      cases n with
      | array c =>
          rw [set_array_cons] at hx
          obtain ⟨y, hy, hx⟩ := Exec.bind_eq_ok.mp hx
          exact h.setImpl_array (hnew _ y (h.getImpl_array head) hy) hx
      | object c =>
          rw [set_object_cons] at hx
          obtain ⟨y, hy, hx⟩ := Exec.bind_eq_ok.mp hx
          cases hx
          exact h.setImpl_object head (hnew _ y (h.getImpl_object head) hy)
      | _ =>
          cases hx
          exact distinctPtr_nodeAtPath (head :: tail) hv

/-! ## Overlays -/

theorem DistinctKeys.overlayLoop_array
    {ov result : NodeArray D}
    (hov : (Node.array ov).DistinctKeys)
    (h : (Node.array result).DistinctKeys)
    (i : Nat) :
    (Node.array (NodeArray.overlayLoop i ov result)).DistinctKeys := by
  induction ov generalizing i result with
  | nil =>
      exact h
  | cons v ov ih =>
      rw [distinctKeys_array_iff, List.forall_mem_cons] at hov
      refine ih (distinctKeys_array_iff.mpr hov.2) ?_ (i + 1)
      split
      · rw [distinctKeys_array_iff] at h ⊢
        intro w hw
        rcases List.mem_or_eq_of_mem_set hw with hw | rfl
        · exact h w hw
        · exact hov.1
      · exact h

theorem DistinctKeys.overlayImpl
    {value ov : NodeArray D}
    (hov : (Node.array ov).DistinctKeys)
    (h : (Node.array value).DistinctKeys) :
    (Node.array (NodeArray.overlayImpl value ov)).DistinctKeys := by
  apply hov.overlayLoop_array
  rw [NodeArray.overlayPad_eq _ _ _ (by omega), distinctKeys_array_iff]
  rw [distinctKeys_array_iff] at h
  intro v hv
  rcases List.mem_append.mp hv with hv | hv
  · exact h v hv
  · rw [List.eq_of_mem_replicate hv]
    trivial

/-- **`overlay` keeps the keys distinct.** -/
theorem DistinctKeys.overlayVisit
    [StdHash]
    {n ov : Node D}
    (hov : ov.DistinctKeys)
    (h : n.DistinctKeys) :
    (Node.overlayVisit ov n).DistinctKeys := by
  induction ov using Node.induction generalizing n with
  | array ov _ =>
      cases n with
      | array value =>
          exact hov.overlayImpl h
      | _ =>
          exact hov
  | object ov ih =>
      cases n with
      | object value =>
          rw [overlayVisit_object, distinctKeys_object_iff]
          have hnodup : AssocMap.KeysNodup (overlayObject value ov) :=
            NodeObject.keysNodup_overlayLoop _ h.keysNodup
          refine ⟨hnodup, ?_⟩
          rintro ⟨k, w⟩ hmem
          have hfind := hnodup.find_iff.mpr hmem
          cases hk : AssocMap.find ov k with
          | none =>
              rw [find_overlayObject_absent _ hov.keysNodup hk] at hfind
              exact h.find hfind
          | some v =>
              cases v with
              | none =>
                  rw [find_overlayObject_marker _ hov.keysNodup hk] at hfind
                  cases hfind
              | some v =>
                  rw [find_overlayObject_node _ hov.keysNodup hk] at hfind
                  cases hfind
                  have hstore := h.getImpl_object k
                  cases hget : NodeObject.getImpl value k with
                  | none =>
                      exact hov.find hk
                  | some store =>
                      rw [hget] at hstore
                      exact ih k v (AssocMap.mem_of_find hk) (hov.find hk) hstore
      | _ =>
          exact hov
  | _ =>
      exact hov

end Node

end AgencyNode
