import AgencyNode.NodeContainer

/-!
# `node::overlay`

An overlay replaces what it names and keeps the rest: objects are merged member
by member, arrays element by element, and everything else is taken from the
overlay.  A member that is `nullptr` in the overlay erases the member of the
base.

The members of an overlay are visited in the order of iteration; as every key
occurs once, the members of the result do not depend on it.
-/

namespace AgencyNode

open Lib

variable {D : Type}

/-! ## Arrays -/

namespace NodeArray

/--
The loop `while (ov.value.size() > result.size())
result.push_back(node::null_node())`, which runs for `fuel` rounds at most.
-/
def overlayPad (ovSize : Nat) : Nat → NodeArray D → NodeArray D
  | 0, result => result
  | fuel + 1, result =>
      if ovSize > result.length then
        overlayPad ovSize fuel (result ++ [some .null])
      else
        result

/-- The loop over the elements of the overlay; `nullptr` does not override. -/
def overlayLoop (i : Nat) : NodeArray D → NodeArray D → NodeArray D
  | [], result => result
  | v :: ov, result =>
      overlayLoop (i + 1) ov (if v.isSome then result.set i v else result)

/-- `node_array::overlay_impl`. -/
def overlayImpl (value ov : NodeArray D) : NodeArray D :=
  let result := overlayPad ov.length ov.length value
  overlayLoop 0 ov result

end NodeArray

/-! ## Objects -/

/--
A member of an overlay: `nullptr`, or a node together with what laying it over
another node gives.
-/
abbrev OverlayMember (D : Type) := String × Option (Node D × (Node D → Node D))

/-- The loop of `node_object::overlay_impl`. -/
def NodeObject.overlayLoop :
    List (OverlayMember D) → NodeObject D → NodeObject D
  | [], result => result
  | (key, none) :: members, result =>
      overlayLoop members (AssocMap.erase result key)
  | (key, some (v, overlay)) :: members, result =>
      -- `result[key]` is `nullptr` for a key that is not there.
      match NodeObject.getImpl result key with
      | none => overlayLoop members (AssocMap.set result key (some v))
      | some store =>
          overlayLoop members (AssocMap.set result key (some (overlay store)))

/-! ## Nodes -/

namespace Node

section Overlay

variable [StdHash]

mutual

/-- `node_overlay_visitor` on an overlay and a base. -/
def overlayVisit : Node D → Node D → Node D
  | .array ov, base =>
      match base with
      | .array value => .array (NodeArray.overlayImpl value ov)
      | _ => .array ov
  | .object ov, base =>
      match base with
      | .object value =>
          .object
            (NodeObject.overlayLoop (ImmerMap.iterate (overlayMembers ov)) value)
      | _ => .object ov
  | ov, _ => ov

/-- The members of the overlay, in no particular order. -/
def overlayMembers : List (String × Option (Node D)) → List (OverlayMember D)
  | [] => []
  | member :: ov => overlayMember member :: overlayMembers ov

def overlayMember : String × Option (Node D) → OverlayMember D
  | (key, v) => (key, overlayPtr v)

def overlayPtr : Option (Node D) → Option (Node D × (Node D → Node D))
  | none => none
  | some v => some (v, overlayVisit v)

end

/-- `node::overlay`. -/
def overlay (n : Node D) (ov : NodePtr D) : Exec (NodePtr D) := do
  let ov ← ov.deref
  return some (overlayVisit ov n)

end Overlay

end Node

/-! ## What the loops compute -/

namespace NodeArray

theorem overlayPad_eq
    (ovSize fuel : Nat)
    (value : NodeArray D)
    (hfuel : ovSize ≤ fuel + value.length) :
    overlayPad ovSize fuel value = padTo .null value ovSize := by
  induction fuel generalizing value with
  | zero =>
      rw [overlayPad, padTo_of_le (by omega)]
  | succ fuel ih =>
      rw [overlayPad]
      split
      · rename_i hlt
        have hstep : ovSize - value.length =
            (ovSize - (value ++ [some (Node.null : Node D)]).length) + 1 := by
          rw [List.length_append, List.length_singleton]
          omega
        have hnext := ih (value ++ [some (Node.null : Node D)])
          (by rw [List.length_append, List.length_singleton]; omega)
        rw [hnext, padTo, padTo, hstep, List.replicate_succ]
        simp
      · rw [padTo_of_le (by omega)]

theorem length_overlayLoop
    (i : Nat)
    (ov result : NodeArray D) :
    (overlayLoop i ov result).length = result.length := by
  induction ov generalizing i result with
  | nil =>
      rfl
  | cons v ov ih =>
      rw [overlayLoop, ih]
      split <;> simp

/-- The loop writes the elements that are not `nullptr` from its index on. -/
theorem getElem?_overlayLoop
    (i : Nat)
    (ov result : NodeArray D)
    (hov : ∀ v ∈ ov, v ≠ none)
    (hlen : i + ov.length ≤ result.length)
    (j : Nat) :
    (overlayLoop i ov result)[j]? =
      if i ≤ j ∧ j < i + ov.length then ov[j - i]? else result[j]? := by
  induction ov generalizing i result with
  | nil =>
      have hno : ¬ (i ≤ j ∧ j < i + ([] : NodeArray D).length) := by
        rw [List.length_nil]
        omega
      rw [if_neg hno, overlayLoop]
  | cons v ov ih =>
      have hv : v.isSome = true :=
        Option.isSome_iff_ne_none.mpr (hov v List.mem_cons_self)
      rw [List.length_cons] at hlen
      rw [overlayLoop, if_pos hv,
        ih (i + 1) _ (fun w hw => hov w (List.mem_cons_of_mem _ hw))
          (by rw [List.length_set]; omega),
        List.length_cons]
      rcases Nat.lt_trichotomy i j with hlt | rfl | hgt
      · have hj : j - i = (j - (i + 1)) + 1 := by omega
        rw [hj, List.getElem?_cons_succ, List.getElem?_set_ne (by omega)]
        by_cases hin : j < i + 1 + ov.length
        · rw [if_pos ⟨by omega, hin⟩, if_pos ⟨by omega, by omega⟩]
        · rw [if_neg (by omega), if_neg (by omega)]
      · rw [if_neg (by omega), if_pos ⟨by omega, by omega⟩, Nat.sub_self,
          List.getElem?_set_self (by omega)]
        rfl
      · rw [if_neg (by omega), if_neg (by omega),
          List.getElem?_set_ne (by omega)]

theorem length_overlayImpl
    (value ov : NodeArray D) :
    (overlayImpl value ov).length = max value.length ov.length := by
  rw [overlayImpl, length_overlayLoop, overlayPad_eq _ _ _ (by omega),
    length_padTo]

/-- **Arrays are merged element by element.** -/
theorem getElem?_overlayImpl
    {value ov : NodeArray D}
    (hov : ∀ v ∈ ov, v ≠ none)
    (j : Nat) :
    (overlayImpl value ov)[j]? =
      if j < ov.length then ov[j]? else value[j]? := by
  rw [overlayImpl, overlayPad_eq _ _ _ (by omega),
    getElem?_overlayLoop _ _ _ hov (by rw [length_padTo]; omega)]
  by_cases hj : j < ov.length
  · rw [if_pos ⟨by omega, by omega⟩, if_pos hj, Nat.sub_zero]
  · rw [if_neg (by omega), if_neg hj]
    by_cases hv : j < value.length
    · exact getElem?_padTo_of_lt hv
    · rw [List.getElem?_eq_none (by rw [length_padTo]; omega),
        List.getElem?_eq_none (by omega)]

/-- An array that already agrees with the overlay stays as it is. -/
theorem overlayImpl_eq_self
    {value ov : NodeArray D}
    (hov : ∀ v ∈ ov, v ≠ none)
    (h : ∀ j < ov.length, value[j]? = ov[j]?) :
    overlayImpl value ov = value := by
  apply List.ext_getElem?
  intro j
  rw [getElem?_overlayImpl hov]
  split
  · rename_i hj
    exact (h j hj).symm
  · rfl

/-- Where the overlay has an element, the merged array has it too. -/
theorem getImpl_overlayImpl
    {value ov : NodeArray D}
    (hov : ∀ v ∈ ov, v ≠ none)
    {key : String}
    {child : Node D}
    (h : NodeArray.getImpl ov key = some child) :
    NodeArray.getImpl (NodeArray.overlayImpl value ov) key = some child := by
  unfold NodeArray.getImpl at h ⊢
  cases hkey : stringToNumber key with
  | none =>
      rw [hkey] at h
      cases h
  | some i =>
      simp only [hkey] at h ⊢
      split at h
      · cases h
      · rename_i hi
        have hlen : i < ov.length := by
          unfold NodeArray.size at hi
          omega
        have hnot : ¬ i ≥ NodeArray.size (NodeArray.overlayImpl value ov) := by
          unfold NodeArray.size at hi ⊢
          rw [NodeArray.length_overlayImpl]
          omega
        rw [if_neg hnot, List.getD_eq_getElem?_getD,
          NodeArray.getElem?_overlayImpl hov, if_pos hlen,
          ← List.getD_eq_getElem?_getD]
        exact h

end NodeArray

namespace NodeObject

theorem getImpl_of_find
    {value : NodeObject D}
    {k : String}
    {v : NodePtr D}
    (h : AssocMap.find value k = some v) :
    getImpl value k = v := by
  rw [getImpl, h]

theorem find_of_getImpl
    {value : NodeObject D}
    {k : String}
    {n : Node D}
    (h : getImpl value k = some n) :
    AssocMap.find value k = some (some n) := by
  unfold getImpl at h
  split at h
  · rename_i v hv
    rw [hv, h]
  · cases h

/-- What the loop stores for a member of the overlay that is a node. -/
def layOver
    (store : NodePtr D)
    (v : Node D)
    (overlay : Node D → Node D) : Node D :=
  match store with
  | none => v
  | some store => overlay store

theorem overlayLoop_member
    (key : String)
    (v : Node D)
    (overlay : Node D → Node D)
    (members : List (OverlayMember D))
    (result : NodeObject D) :
    overlayLoop ((key, some (v, overlay)) :: members) result =
      overlayLoop members
        (AssocMap.set result key
          (some (layOver (getImpl result key) v overlay))) := by
  rw [overlayLoop]
  cases getImpl result key <;> rfl

theorem getImpl_congr
    {value value' : NodeObject D}
    {k : String}
    (h : AssocMap.find value k = AssocMap.find value' k) :
    getImpl value k = getImpl value' k := by
  unfold getImpl
  rw [h]

/-- A member the overlay does not mention stays. -/
theorem find_overlayLoop_absent
    {members : List (OverlayMember D)}
    {result : NodeObject D}
    {k : String}
    (h : AssocMap.find members k = none) :
    AssocMap.find (overlayLoop members result) k = AssocMap.find result k := by
  induction members generalizing result with
  | nil =>
      rfl
  | cons member members ih =>
      obtain ⟨key, v⟩ := member
      by_cases hkey : key = k
      · rw [hkey, AssocMap.find_cons_self] at h
        cases h
      · rw [AssocMap.find_cons_ne _ _ hkey] at h
        cases v with
        | none =>
            rw [overlayLoop, ih h, AssocMap.find_erase_ne _ hkey]
        | some v =>
            rw [overlayLoop_member, ih h, AssocMap.find_set_ne _ _ hkey]

/-- What the members behind the first one find under its key. -/
theorem find_overlayLoop_behind
    {key : String}
    {v : Option (Node D × (Node D → Node D))}
    {members : List (OverlayMember D)}
    (hnodup : AssocMap.KeysNodup ((key, v) :: members))
    (result : NodeObject D) :
    AssocMap.find (overlayLoop members result) key =
      AssocMap.find result key := by
  have hnot := (AssocMap.keysNodup_cons.mp hnodup).1
  exact find_overlayLoop_absent (AssocMap.find_eq_none_iff.mpr hnot)

/-- A member that is `nullptr` in the overlay is gone. -/
theorem find_overlayLoop_marker
    {members : List (OverlayMember D)}
    (hnodup : AssocMap.KeysNodup members)
    {result : NodeObject D}
    {k : String}
    (h : AssocMap.find members k = some none) :
    AssocMap.find (overlayLoop members result) k = none := by
  induction members generalizing result with
  | nil =>
      cases h
  | cons member members ih =>
      obtain ⟨key, v⟩ := member
      by_cases hkey : key = k
      · subst hkey
        rw [AssocMap.find_cons_self] at h
        cases h
        rw [overlayLoop, find_overlayLoop_behind hnodup,
          AssocMap.find_erase_self]
      · rw [AssocMap.find_cons_ne _ _ hkey] at h
        have hrest := (AssocMap.keysNodup_cons.mp hnodup).2
        cases v with
        | none =>
            rw [overlayLoop, ih hrest h]
        | some v =>
            rw [overlayLoop_member, ih hrest h]

/-- A member that is a node in the overlay is laid over that of the base. -/
theorem find_overlayLoop_node
    {members : List (OverlayMember D)}
    (hnodup : AssocMap.KeysNodup members)
    {result : NodeObject D}
    {k : String}
    {v : Node D}
    {overlay : Node D → Node D}
    (h : AssocMap.find members k = some (some (v, overlay))) :
    AssocMap.find (overlayLoop members result) k =
      some (some (layOver (getImpl result k) v overlay)) := by
  induction members generalizing result with
  | nil =>
      cases h
  | cons member members ih =>
      obtain ⟨key, w⟩ := member
      by_cases hkey : key = k
      · subst hkey
        rw [AssocMap.find_cons_self] at h
        cases h
        rw [overlayLoop_member, find_overlayLoop_behind hnodup,
          AssocMap.find_set_self]
      · rw [AssocMap.find_cons_ne _ _ hkey] at h
        have hrest := (AssocMap.keysNodup_cons.mp hnodup).2
        cases w with
        | none =>
            rw [overlayLoop, ih hrest h,
              getImpl_congr (AssocMap.find_erase_ne _ hkey)]
        | some w =>
            rw [overlayLoop_member, ih hrest h,
              getImpl_congr (AssocMap.find_set_ne _ _ hkey)]

/-- The loop keeps the keys distinct. -/
theorem keysNodup_overlayLoop
    (members : List (OverlayMember D))
    {result : NodeObject D}
    (h : AssocMap.KeysNodup result) :
    AssocMap.KeysNodup (overlayLoop members result) := by
  induction members generalizing result with
  | nil =>
      exact h
  | cons member members ih =>
      obtain ⟨key, v⟩ := member
      cases v with
      | none =>
          rw [overlayLoop]
          exact ih (h.erase key)
      | some v =>
          rw [overlayLoop_member]
          exact ih (h.set key _)

end NodeObject

namespace Node

variable [StdHash]

theorem overlayMembers_eq
    (ov : NodeObject D) :
    overlayMembers ov =
      ov.map fun member => (member.1, overlayPtr member.2) := by
  induction ov with
  | nil =>
      rfl
  | cons member ov ih =>
      obtain ⟨key, v⟩ := member
      rw [overlayMembers, ih]
      rfl

theorem keysNodup_overlayMembers
    {ov : NodeObject D}
    (h : AssocMap.KeysNodup ov) :
    AssocMap.KeysNodup (ImmerMap.iterate (overlayMembers ov)) := by
  have hkeys : (overlayMembers ov).map Prod.fst = ov.map Prod.fst := by
    rw [overlayMembers_eq, List.map_map]
    rfl
  have hnodup : AssocMap.KeysNodup (overlayMembers ov) := by
    unfold AssocMap.KeysNodup
    rw [hkeys]
    exact h
  exact hnodup.of_perm (ImmerMap.iterate_perm _)

/-- The order of iteration is of no importance for a lookup. -/
theorem find_overlayMembers
    {ov : NodeObject D}
    (h : AssocMap.KeysNodup ov)
    (k : String) :
    AssocMap.find (ImmerMap.iterate (overlayMembers ov)) k =
      (AssocMap.find ov k).map overlayPtr := by
  have hiterate := keysNodup_overlayMembers h
  have hmembers := hiterate.of_perm (ImmerMap.iterate_perm _).symm
  rw [hiterate.find_eq_of_perm hmembers (ImmerMap.iterate_perm _),
    overlayMembers_eq]
  exact AssocMap.find_map overlayPtr ov k

/-- `node_object::overlay_impl`. -/
def overlayObject (value ov : NodeObject D) : NodeObject D :=
  NodeObject.overlayLoop (ImmerMap.iterate (overlayMembers ov)) value

theorem overlayVisit_object
    (value ov : NodeObject D) :
    overlayVisit (.object ov) (.object value) =
      .object (overlayObject value ov) := by
  rfl

theorem overlayVisit_array
    (value ov : NodeArray D) :
    overlayVisit (.array ov) (.array value) =
      .array (NodeArray.overlayImpl value ov) := by
  rfl

section Members

variable (value : NodeObject D) {ov : NodeObject D} {k : String}

/-- **Objects are merged member by member**: what only the base has stays. -/
theorem find_overlayObject_absent
    (hov : AssocMap.KeysNodup ov)
    (h : AssocMap.find ov k = none) :
    AssocMap.find (overlayObject value ov) k = AssocMap.find value k := by
  apply NodeObject.find_overlayLoop_absent
  rw [find_overlayMembers hov, h]
  rfl

theorem find_overlayObject_marker
    (hov : AssocMap.KeysNodup ov)
    (h : AssocMap.find ov k = some none) :
    AssocMap.find (overlayObject value ov) k = none := by
  apply NodeObject.find_overlayLoop_marker (keysNodup_overlayMembers hov)
  rw [find_overlayMembers hov, h]
  rfl

theorem find_overlayObject_node
    (hov : AssocMap.KeysNodup ov)
    {v : Node D}
    (h : AssocMap.find ov k = some (some v)) :
    AssocMap.find (overlayObject value ov) k =
      some (some (NodeObject.layOver (NodeObject.getImpl value k) v
        (overlayVisit v))) := by
  apply NodeObject.find_overlayLoop_node (keysNodup_overlayMembers hov)
  rw [find_overlayMembers hov, h]
  rfl

end Members

end Node

end AgencyNode
