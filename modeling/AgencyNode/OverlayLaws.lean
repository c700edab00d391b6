import AgencyNode.Completeness
import AgencyNode.DistinctKeys
import AgencyNode.Tree

/-!
# What an overlay does

Laying one path over a node is writing at that path.  Laying a whole tree over
another is a deep merge in which the overlay wins; whatever the overlay does not
mention stays.  The markers for deletion in an overlay are used up where the
base has an object for them, and nowhere else.
-/

namespace AgencyNode

open Lib

variable {D : Type}

namespace Node

/-- What `get` finds behind an object. -/
theorem get_append_object
    {n : Node D}
    {q : Path}
    {value : NodeObject D}
    (h : n.get q = some (.object value))
    (k : String) :
    n.get (q ++ [k]) = NodeObject.getImpl value k := by
  induction q generalizing n with
  | nil =>
      rw [get_nil] at h
      cases h
      simp only [List.nil_append, Node.get]
      cases NodeObject.getImpl value k with
      | none => rfl
      | some child => exact get_nil child
  | cons head tail ih =>
      obtain ⟨child, hchild, hget⟩ := get_cons_eq_some h
      have hstep : n.get (head :: tail ++ [k]) = child.get (tail ++ [k]) := by
        cases n with
        | array c =>
            have hchild : NodeArray.getImpl c head = some child := hchild
            simp only [List.cons_append, Node.get, hchild]
        | object c =>
            have hchild : NodeObject.getImpl c head = some child := hchild
            simp only [List.cons_append, Node.get, hchild]
        | _ =>
            cases hchild
      rw [hstep]
      exact ih hget

/-! ## One path -/

section OnePath

variable [StdHash]

theorem overlayVisit_scalar
    {v : Node D}
    (hv : v.IsScalar)
    (n : Node D) :
    overlayVisit v n = v := by
  cases v with
  | array => exact hv.elim
  | object => exact hv.elim
  | _ => rfl

theorem iterate_singleton
    {V : Type}
    (e : String × V) :
    ImmerMap.iterate [e] = [e] :=
  List.perm_singleton.mp (ImmerMap.iterate_perm [e])

/-- An overlay of one member is one write. -/
theorem overlayObject_ofMember
    (value : NodeObject D)
    (key : String)
    (v : NodePtr D) :
    overlayObject value (NodeObject.ofMember key v) =
      match v with
      | none => AssocMap.erase value key
      | some v =>
          AssocMap.set value key
            (some (NodeObject.layOver (NodeObject.getImpl value key) v
              (overlayVisit v))) := by
  have hmembers : ImmerMap.iterate (overlayMembers (NodeObject.ofMember key v)) =
      [(key, overlayPtr v)] := by
    rw [overlayMembers_eq]
    exact iterate_singleton _
  rw [overlayObject, hmembers]
  cases v with
  | none =>
      rfl
  | some v =>
      exact NodeObject.overlayLoop_member key v (overlayVisit v) [] value

/-- The value is a scalar or `nullptr`. -/
def IsScalarPtr (v : NodePtr D) : Prop :=
  ∀ m, v = some m → m.IsScalar

theorem set_eq_overlayVisit
    (n : Node D)
    (p : Path)
    (v : NodePtr D)
    (hne : p ≠ [])
    (hv : IsScalarPtr v)
    (harray : ∀ r s, p = r ++ s → s ≠ [] → ∀ l, n.get r ≠ some (.array l)) :
    ∃ ov, nodeAtPath p v = some ov ∧
      n.set p v = .ok (some (overlayVisit ov n)) := by
  induction p generalizing n with
  | nil =>
      exact absurd rfl hne
  | cons head tail ih =>
      refine ⟨.object (NodeObject.ofMember head (nodeAtPath tail v)), rfl, ?_⟩
      cases n with
      | array c =>
          exact absurd (get_nil _) (harray [] (head :: tail) rfl (by simp) c)
      | object c =>
          rw [set_object_cons, overlayVisit_object, overlayObject_ofMember]
          cases tail with
          | nil =>
              have hnew : newChild (NodeObject.getImpl c head) [] v = .ok v := by
                cases NodeObject.getImpl c head with
                | none => rfl
                | some child => cases child <;> rfl
              rw [hnew, Exec.ok_bind]
              cases v with
              | none =>
                  rfl
              | some m =>
                  have hlay : NodeObject.layOver (NodeObject.getImpl c head) m
                      (overlayVisit m) = m := by
                    cases NodeObject.getImpl c head with
                    | none => rfl
                    | some store => exact overlayVisit_scalar (hv m rfl) store
                  simp only [nodeAtPath, hlay]
                  rfl
          | cons head' tail =>
              cases hchild : NodeObject.getImpl c head with
              | none =>
                  rfl
              | some child =>
                  have hbelow : ∀ r s, head' :: tail = r ++ s → s ≠ [] →
                      ∀ l, child.get r ≠ some (.array l) := by
                    intro r s hp hs l hget
                    refine harray (head :: r) s (by rw [hp]; rfl) hs l ?_
                    simp only [Node.get, hchild]
                    exact hget
                  obtain ⟨ov, hov, hset⟩ := ih child (by simp) hbelow
                  simp only [newChild, hset, hov]
                  rfl
      | _ =>
          rfl

/--
**The two ways of updating a path agree**: laying the path with a scalar or with
`nullptr` at its end over a node is writing there.
-/
theorem overlay_nodeAtPath
    (n : Node D)
    (p : Path)
    (v : NodePtr D)
    (hne : p ≠ [])
    (hv : IsScalarPtr v)
    (harray : ∀ r s, p = r ++ s → s ≠ [] → ∀ l, n.get r ≠ some (.array l)) :
    ∃ m, n.overlay (nodeAtPath p v) = .ok (some m) ∧
      n.set p v = .ok (some m) ∧
      (v = none → n.remove p = .ok (some m)) := by
  obtain ⟨ov, hov, hset⟩ := set_eq_overlayVisit n p v hne hv harray
  refine ⟨overlayVisit ov n, ?_, hset, ?_⟩
  · rw [hov]
    rfl
  · rintro rfl
    exact hset

end OnePath

/-- A number is replaced by the object that holds a deletion marker. -/
theorem overlay_nodeAtPath_remove :
    letI := constantHash
    let n : Node Int := .object [("a", some (.double 1))]
    ∃ m, n.overlay (nodeAtPath ["a", "b"] none) = .ok (some m) ∧
      n.set ["a", "b"] none = .ok (some m) ∧
      (none = (none : NodePtr Int) → n.remove ["a", "b"] = .ok (some m)) := by
  intro n
  let := constantHash
  refine overlay_nodeAtPath n ["a", "b"] none (by simp) ?_ ?_
  · intro m hm
    cases hm
  · intro r s hp hs l hget
    match r, s, hp with
    | [], _, _ =>
        simp [n] at hget
    | [_], _, hp =>
        cases hp
        simp [n, Node.get, NodeObject.getImpl, AssocMap.find] at hget
    | _ :: _ :: r, s, hp =>
        simp only [List.cons_append, List.cons.injEq] at hp
        have hnil := List.append_eq_nil_iff.mp hp.2.2.symm
        exact hs hnil.2

/-! ## Markers -/

/-- The node itself, or a node below it. -/
inductive Below (m : Node D) : Node D → Prop
  | refl : Below m m
  | element
      {value : NodeArray D}
      {child : Node D}
      (hchild : some child ∈ value)
      (hm : Below m child) : Below m (.array value)
  | member
      {value : NodeObject D}
      {key : String}
      {child : Node D}
      (hchild : (key, some child) ∈ value)
      (hm : Below m child) : Below m (.object value)

/-- No array in the overlay holds `nullptr`. -/
def ArraysHoldNodes (ov : Node D) : Prop :=
  ∀ value, Below (.array value) ov → ∀ v ∈ value, v ≠ none

theorem ArraysHoldNodes.member
    {value : NodeObject D}
    (h : (Node.object value).ArraysHoldNodes)
    {key : String}
    {child : Node D}
    (hchild : (key, some child) ∈ value) :
    child.ArraysHoldNodes :=
  fun l hl => h l (.member hchild hl)

/-- A complete node has no markers at all. -/
theorem Complete.arraysHoldNodes
    {ov : Node D}
    (h : ov.Complete) :
    ov.ArraysHoldNodes := by
  intro value hbelow
  induction hbelow with
  | refl =>
      intro v hv hnone
      have := complete_array_iff.mp h v hv
      rw [hnone] at this
      exact not_completePtr_none this
  | element hchild _ ih =>
      exact ih (complete_array_iff.mp h _ hchild)
  | member hchild _ ih =>
      exact ih (complete_object_iff.mp h _ hchild)

mutual

/--
Every marker in the overlay meets an object of the base: a part of the overlay
that holds a marker somewhere is an object, the base has an object there too,
and the same is true of each member and what the base has under its key.
-/
def MarkersMeet : (ov n : Node D) → Prop
  | .object ov, n =>
      Complete (.object ov) ∨
        ∃ value, n = .object value ∧ MembersMeet ov value
  | .array ov, _ => Complete (.array ov)
  | _, _ => True
termination_by structural ov => ov

def MembersMeet : (ov : List (String × Option (Node D))) → NodeObject D → Prop
  | [], _ => True
  | member :: ov, value => MemberMeets member value ∧ MembersMeet ov value
termination_by structural ov => ov

def MemberMeets : (member : String × Option (Node D)) → NodeObject D → Prop
  | (key, v), value => PtrMeets v (NodeObject.getImpl value key)
termination_by structural member => member

def PtrMeets : (v : Option (Node D)) → NodePtr D → Prop
  | none, _ => True
  | some v, none => Complete v
  | some v, some store => MarkersMeet v store
termination_by structural v => v

end

theorem markersMeet_of_complete
    {ov : Node D}
    (h : ov.Complete)
    (n : Node D) :
    MarkersMeet ov n := by
  cases ov with
  | object ov => exact .inl h
  | array ov => exact h
  | _ => trivial

theorem membersMeet_iff
    {ov value : NodeObject D} :
    MembersMeet ov value ↔
      ∀ key v, (key, some v) ∈ ov →
        PtrMeets (some v) (NodeObject.getImpl value key) := by
  induction ov with
  | nil =>
      simp [MembersMeet]
  | cons member ov ih =>
      obtain ⟨key, v⟩ := member
      rw [MembersMeet, ih, MemberMeets]
      constructor
      · intro h key' v' hmem
        rcases List.mem_cons.mp hmem with heq | hmem
        · cases heq
          exact h.1
        · exact h.2 key' v' hmem
      · intro h
        refine ⟨?_, fun key' v' hmem => h key' v' (List.mem_cons_of_mem _ hmem)⟩
        cases v with
        | none => trivial
        | some v => exact h key v List.mem_cons_self

/-- What the members of two objects have to meet. -/
theorem MarkersMeet.member
    {ov value : NodeObject D}
    (h : MarkersMeet (.object ov) (.object value))
    {key : String}
    {v : Node D}
    (hmem : (key, some v) ∈ ov) :
    PtrMeets (some v) (NodeObject.getImpl value key) := by
  rcases h with hcomplete | ⟨value', heq, hmembers⟩
  · have hv : v.Complete := complete_object_iff.mp hcomplete _ hmem
    cases NodeObject.getImpl value key with
    | none => exact hv
    | some store => exact markersMeet_of_complete hv store
  · cases heq
    exact membersMeet_iff.mp hmembers key v hmem

section Markers

variable [StdHash]

/-- An overlay whose markers meet objects leaves no `nullptr` behind. -/
theorem MarkersMeet.complete
    {n ov : Node D}
    (h : MarkersMeet ov n)
    (hov : ov.DistinctKeys)
    (hn : n.Complete)
    (hnkeys : n.DistinctKeys) :
    (overlayVisit ov n).Complete := by
  induction ov using Node.induction generalizing n with
  | array ov _ =>
      have hcomplete : (Node.array ov).Complete := h
      cases n with
      | array value =>
          rw [overlayVisit_array, complete_array_iff]
          intro v hv
          obtain ⟨j, hj⟩ := List.mem_iff_getElem?.mp hv
          have hnodes := hcomplete.arraysHoldNodes ov .refl
          rw [NodeArray.getElem?_overlayImpl hnodes] at hj
          split at hj
          · exact complete_array_iff.mp hcomplete v (List.mem_of_getElem? hj)
          · exact complete_array_iff.mp hn v (List.mem_of_getElem? hj)
      | _ =>
          exact hcomplete
  | object ov ih =>
      cases n with
      | object value =>
          have hnodup : AssocMap.KeysNodup (overlayObject value ov) :=
            NodeObject.keysNodup_overlayLoop _ hnkeys.keysNodup
          rw [overlayVisit_object, complete_object_iff]
          rintro ⟨k, w⟩ hmem
          have hfind := hnodup.find_iff.mpr hmem
          cases hk : AssocMap.find ov k with
          | none =>
              rw [find_overlayObject_absent _ hov.keysNodup hk] at hfind
              exact complete_object_iff.mp hn _ (AssocMap.mem_of_find hfind)
          | some v =>
              cases v with
              | none =>
                  rw [find_overlayObject_marker _ hov.keysNodup hk] at hfind
                  cases hfind
              | some v =>
                  rw [find_overlayObject_node _ hov.keysNodup hk] at hfind
                  cases hfind
                  have hmeets := h.member (AssocMap.mem_of_find hk)
                  have hstore := hnkeys.getImpl_object k
                  cases hget : NodeObject.getImpl value k with
                  | none =>
                      rw [hget] at hmeets
                      exact hmeets
                  | some store =>
                      rw [hget] at hmeets hstore
                      exact ih k v (AssocMap.mem_of_find hk) hmeets
                        (hov.find hk) (complete_getImpl_object hn hget) hstore
      | _ =>
          rcases h with h | ⟨value, heq, _⟩
          · exact h
          · cases heq
  | _ =>
      trivial

/-- A marker that meets no object stays in the result. -/
theorem markersMeet_of_complete_overlay
    {n ov : Node D}
    (hov : ov.DistinctKeys)
    (harrays : ov.ArraysHoldNodes)
    (h : (overlayVisit ov n).Complete) :
    MarkersMeet ov n := by
  induction ov using Node.induction generalizing n with
  | array ov _ =>
      cases n with
      | array value =>
          rw [overlayVisit_array, complete_array_iff] at h
          change (Node.array ov).Complete
          rw [complete_array_iff]
          intro v hv
          obtain ⟨j, hj, hvj⟩ := List.mem_iff_getElem.mp hv
          apply h
          apply List.mem_of_getElem? (i := j)
          rw [NodeArray.getElem?_overlayImpl (harrays ov .refl), if_pos hj,
            List.getElem?_eq_getElem hj, hvj]
      | _ =>
          exact h
  | object ov ih =>
      cases n with
      | object value =>
          refine .inr ⟨value, rfl, ?_⟩
          rw [membersMeet_iff]
          intro k v hmem
          have hfind := hov.keysNodup.find_iff.mpr hmem
          have hmerged := complete_object_iff.mp h _ (AssocMap.mem_of_find
            (find_overlayObject_node value hov.keysNodup hfind))
          cases hget : NodeObject.getImpl value k with
          | none =>
              rw [hget] at hmerged
              exact hmerged
          | some store =>
              rw [hget] at hmerged
              exact ih k v hmem (hov.find hfind) (harrays.member hmem) hmerged
      | _ =>
          exact .inl h
  | _ =>
      trivial

/-- **Every marked path is absent from the result.** -/
theorem get_overlayVisit_marker
    {n ov : Node D}
    (hov : ov.DistinctKeys)
    (harrays : ov.ArraysHoldNodes)
    {q : Path}
    {members : NodeObject D}
    {k : String}
    (hq : ov.get q = some (.object members))
    (hk : AssocMap.find members k = some none) :
    (overlayVisit ov n).get (q ++ [k]) = none := by
  have hmarked : NodeObject.getImpl members k = none :=
    NodeObject.getImpl_of_find hk
  induction q generalizing n ov with
  | nil =>
      rw [get_nil] at hq
      cases hq
      cases n with
      | object value =>
          have hget : (overlayVisit (.object members) (.object value)).get [] =
              some (.object (overlayObject value members)) := get_nil _
          have hgone := find_overlayObject_marker value
            hov.keysNodup hk
          rw [get_append_object hget, NodeObject.getImpl, hgone]
      | _ =>
          exact (get_append_object (get_nil _) k).trans hmarked
  | cons head tail ih =>
      obtain ⟨child, hchild, hget⟩ := get_cons_eq_some hq
      cases ov with
      | array ov =>
          have hsame : (overlayVisit (.array ov) n).get (head :: (tail ++ [k])) =
              child.get (tail ++ [k]) := by
            have hchild : NodeArray.getImpl ov head = some child := hchild
            cases n with
            | array value =>
                simp only [overlayVisit_array, Node.get,
                  NodeArray.getImpl_overlayImpl (harrays ov .refl) hchild]
            | _ =>
                simp only [overlayVisit, Node.get, hchild]
          rw [List.cons_append, hsame, get_append_object hget, hmarked]
      | object ov =>
          have hchild : NodeObject.getImpl ov head = some child := hchild
          have hfind := NodeObject.find_of_getImpl hchild
          have hmem := AssocMap.mem_of_find hfind
          cases n with
          | object value =>
              have hmerged := find_overlayObject_node value
                hov.keysNodup hfind
              have hbelow : ∀ store, (overlayVisit child store).get
                  (tail ++ [k]) = none :=
                fun store => ih (hov.find hfind) (harrays.member hmem) hget
              simp only [List.cons_append, overlayVisit_object, Node.get,
                NodeObject.getImpl_of_find hmerged]
              cases NodeObject.getImpl value head with
              | none =>
                  exact (get_append_object hget k).trans hmarked
              | some store =>
                  exact hbelow store
          | _ =>
              simp only [List.cons_append, overlayVisit, Node.get, hchild]
              exact (get_append_object hget k).trans hmarked
      | _ =>
          cases hchild

/-! ## Idempotence -/

/-- A complete node laid over itself is itself. -/
theorem overlayVisit_self
    {n : Node D}
    (hn : n.Complete)
    (hkeys : n.DistinctKeys) :
    (overlayVisit n n).Equal n := by
  induction n using Node.induction with
  | array value _ =>
      rw [overlayVisit_array, NodeArray.overlayImpl_eq_self
        (hn.arraysHoldNodes value .refl) fun _ _ => rfl]
      exact Equal.refl _
  | object value ih =>
      rw [overlayVisit_object, equal_object_iff]
      intro k
      cases hk : AssocMap.find value k with
      | none =>
          rw [find_overlayObject_absent _ hkeys.keysNodup hk, hk]
      | some v =>
          have hmem := AssocMap.mem_of_find hk
          obtain ⟨v, rfl, hv⟩ := (complete_object_iff.mp hn _ hmem).exists_node
          rw [find_overlayObject_node _ hkeys.keysNodup hk,
            NodeObject.getImpl_of_find hk]
          have hself := ih k v hmem hv (hkeys.find hk)
          exact congrArg some (congrArg some hself)
  | _ =>
      exact Equal.refl _

/-- Laying an overlay over the result once more changes nothing. -/
theorem MarkersMeet.overlay_overlay
    {n ov : Node D}
    (h : MarkersMeet ov n)
    (hov : ov.DistinctKeys) :
    (overlayVisit ov (overlayVisit ov n)).Equal (overlayVisit ov n) := by
  induction ov using Node.induction generalizing n with
  | array ov _ =>
      have hcomplete : (Node.array ov).Complete := h
      have hnodes := hcomplete.arraysHoldNodes ov .refl
      cases n with
      | array value =>
          rw [overlayVisit_array, overlayVisit_array,
            NodeArray.overlayImpl_eq_self hnodes]
          · exact Equal.refl _
          · intro j hj
            rw [NodeArray.getElem?_overlayImpl hnodes, if_pos hj]
      | _ =>
          exact overlayVisit_self hcomplete hov
  | object ov ih =>
      cases n with
      | object value =>
          rw [overlayVisit_object, overlayVisit_object, equal_object_iff]
          intro k
          cases hk : AssocMap.find ov k with
          | none =>
              rw [find_overlayObject_absent _ hov.keysNodup hk]
          | some v =>
              cases v with
              | none =>
                  rw [find_overlayObject_marker _ hov.keysNodup hk,
                    find_overlayObject_marker _ hov.keysNodup hk]
              | some v =>
                  have hmem := AssocMap.mem_of_find hk
                  have hmeets := h.member hmem
                  have honce := find_overlayObject_node value
                    hov.keysNodup hk
                  rw [find_overlayObject_node _ hov.keysNodup hk, honce,
                    NodeObject.getImpl_of_find honce]
                  cases hstore : NodeObject.getImpl value k with
                  | none =>
                      rw [hstore] at hmeets
                      have hself := overlayVisit_self hmeets (hov.find hk)
                      exact congrArg some (congrArg some hself)
                  | some store =>
                      rw [hstore] at hmeets
                      have hagain := ih k v hmem hmeets (hov.find hk)
                      exact congrArg some (congrArg some hagain)
      | _ =>
          rcases h with h | ⟨value, heq, _⟩
          · exact overlayVisit_self h hov
          · cases heq
  | _ =>
      exact Equal.refl _

/-- What is to become of the markers of an overlay. -/
structure MarkersConsumed (ov r : Node D) : Prop where
  complete : r.Complete
  /-- Every path marked in the overlay is absent. -/
  absent : ∀ q members k, ov.get q = some (.object members) →
    AssocMap.find members k = some none → r.get (q ++ [k]) = none
  /-- Applying the overlay again changes nothing. -/
  again : ∃ r', r.overlay (some ov) = .ok (some r') ∧ r'.Equal r

/--
**The markers of an overlay are consumed** exactly if every one of them meets an
object of the base.
-/
theorem overlay_markers_iff
    (n ov : Node D)
    (hn : n.Complete)
    (hnkeys : n.DistinctKeys)
    (hov : ov.DistinctKeys)
    (harrays : ov.ArraysHoldNodes) :
    (∃ r, n.overlay (some ov) = .ok (some r) ∧ MarkersConsumed ov r) ↔
      MarkersMeet ov n := by
  constructor
  · rintro ⟨r, hr, hconsumed⟩
    cases hr
    exact markersMeet_of_complete_overlay hov harrays hconsumed.complete
  · intro h
    refine ⟨overlayVisit ov n, rfl, ?_⟩
    refine ⟨h.complete hov hn hnkeys, ?_, ?_⟩
    · intro q members k hq hk
      exact get_overlayVisit_marker hov harrays hq hk
    · exact ⟨_, rfl, h.overlay_overlay hov⟩

end Markers

/-- A marker below a member that exists is consumed. -/
theorem overlay_markers_iff_member :
    letI := constantHash
    let n : Node Int := ofJson
      (.object [("a", .object [("b", .null), ("c", .null)])])
    let ov : Node Int := .object [("a", some (.object [("b", none)]))]
    (∃ r, n.overlay (some ov) = .ok (some r) ∧ MarkersConsumed ov r) ↔
      MarkersMeet ov n := by
  let := constantHash
  refine overlay_markers_iff _ _ (complete_ofJson _) (distinctKeys_ofJson _) ?_ ?_
  · simp [distinctKeys_object_iff, AssocMap.KeysNodup]
  · intro value hbelow
    rcases hbelow with _ | _ | ⟨hchild, hbelow⟩
    simp only [List.mem_singleton, Prod.mk.injEq, Option.some.injEq] at hchild
    obtain ⟨_, rfl⟩ := hchild
    rcases hbelow with _ | _ | ⟨hchild, _⟩
    simp at hchild

/-- A marker below a member the base lacks stays in the tree. -/
theorem overlay_markers_kept :
    letI := constantHash
    let n : Node Int := .object []
    let ov : Node Int := .object [("a", some (.object [("b", none)]))]
    n.Complete ∧ n.overlay (some ov) = .ok (some ov) ∧
      ¬ ∃ r, n.overlay (some ov) = .ok (some r) ∧ MarkersConsumed ov r := by
  intro n ov
  let := constantHash
  have hoverlay : n.overlay (some ov) = .ok (some ov) := rfl
  refine ⟨by simp [n], hoverlay, ?_⟩
  rintro ⟨r, hr, hconsumed⟩
  rw [hoverlay] at hr
  obtain rfl : ov = r := Option.some.inj (Except.ok.inj hr)
  have hov := hconsumed.complete
  simp [ov, Complete, CompleteMembers, CompleteMember, CompletePtr] at hov

/-! ## Deep merge -/

/-- The members of the object that a path of object members leads to. -/
def objectAt : Node D → Path → Option (NodeObject D)
  | .object value, [] => some value
  | .object value, key :: q =>
      match NodeObject.getImpl value key with
      | some child => child.objectAt q
      | none => none
  | _, _ => none

theorem get_of_objectAt
    {n : Node D}
    {q : Path}
    {value : NodeObject D}
    (h : n.objectAt q = some value) :
    n.get q = some (.object value) := by
  induction q generalizing n with
  | nil =>
      cases n with
      | object value' =>
          cases h
          exact get_nil _
      | _ =>
          cases h
  | cons key q ih =>
      cases n with
      | object value' =>
          simp only [objectAt, Node.get] at h ⊢
          cases hchild : NodeObject.getImpl value' key with
          | none =>
              rw [hchild] at h
              cases h
          | some child =>
              rw [hchild] at h
              exact ih h
      | _ =>
          cases h

section Merge

variable [StdHash]

/-- Where both have an object, the result has the merged object. -/
theorem objectAt_overlayVisit
    {n ov : Node D}
    (hov : ov.DistinctKeys)
    {q : Path}
    {value members : NodeObject D}
    (hn : n.objectAt q = some value)
    (hq : ov.objectAt q = some members) :
    (overlayVisit ov n).objectAt q = some (overlayObject value members) := by
  induction q generalizing n ov with
  | nil =>
      cases n <;> cases hn
      cases ov <;> cases hq
      rfl
  | cons key q ih =>
      cases n with
      | object value' =>
          cases ov with
          | object members' =>
              simp only [objectAt] at hn hq
              cases hchild : NodeObject.getImpl value' key with
              | none =>
                  rw [hchild] at hn
                  cases hn
              | some child =>
                  cases hover : NodeObject.getImpl members' key with
                  | none =>
                      rw [hover] at hq
                      cases hq
                  | some laid =>
                      rw [hchild] at hn
                      rw [hover] at hq
                      have hfind := NodeObject.find_of_getImpl hover
                      have hmerged := find_overlayObject_node value'
                        hov.keysNodup hfind
                      rw [overlayVisit_object, objectAt,
                        NodeObject.getImpl_of_find hmerged, hchild]
                      exact ih (hov.find hfind) hn hq
          | _ =>
              cases hq
      | _ =>
          cases hn

/-- What merging two objects makes of the members under one key. -/
structure MergedMember
    (value members result : NodeObject D)
    (k : String)
    (a b c : NodePtr D) : Prop where
  added : k ∈ members.map Prod.fst → k ∉ value.map Prod.fst → c = b
  kept : k ∈ value.map Prod.fst → k ∉ members.map Prod.fst → c = a
  replaced : ∀ x y, a = some x → b = some y →
    (∀ l l', ¬ (x = .object l ∧ y = .object l')) →
    (∀ l l', ¬ (x = .array l ∧ y = .array l')) → c = some y
  arrays : ∀ l l', a = some (.array l) → b = some (.array l') →
    ∃ r, c = some (.array r) ∧
      ∀ i : Nat, r[i]? = if i < l'.length then l'[i]? else l[i]?
  nothingElse : k ∈ result.map Prod.fst →
    k ∈ value.map Prod.fst ∨ k ∈ members.map Prod.fst

/-- Values that are not both objects nor both arrays are replaced. -/
theorem overlayVisit_replaced
    {x y : Node D}
    (hobjects : ∀ l l', ¬ (x = .object l ∧ y = .object l'))
    (harrays : ∀ l l', ¬ (x = .array l ∧ y = .array l')) :
    overlayVisit y x = y := by
  cases y with
  | array l' =>
      cases x with
      | array l => exact absurd ⟨rfl, rfl⟩ (harrays l l')
      | _ => rfl
  | object l' =>
      cases x with
      | object l => exact absurd ⟨rfl, rfl⟩ (hobjects l l')
      | _ => rfl
  | _ => rfl

theorem mergedMember_overlayObject
    {value members : NodeObject D}
    (hov : (Node.object members).DistinctKeys)
    (hcomplete : (Node.object members).Complete)
    (k : String) :
    MergedMember value members (overlayObject value members) k
      (NodeObject.getImpl value k) (NodeObject.getImpl members k)
      (NodeObject.getImpl (overlayObject value members) k) := by
  cases hk : AssocMap.find members k with
  | none =>
      have hnot := AssocMap.find_eq_none_iff.mp hk
      have hfind := find_overlayObject_absent value hov.keysNodup hk
      have hb : NodeObject.getImpl members k = none := by
        rw [NodeObject.getImpl, hk]
      refine ⟨fun h => absurd h hnot, ?_, ?_, ?_, ?_⟩
      · intro _ _
        exact NodeObject.getImpl_congr hfind
      · intro x y _ hy
        rw [hb] at hy
        cases hy
      · intro l l' _ hl'
        rw [hb] at hl'
        cases hl'
      · intro hmem
        left
        rw [← AssocMap.isSome_find_iff] at hmem ⊢
        rwa [hfind] at hmem
  | some v =>
      have hmem := AssocMap.mem_of_find hk
      obtain ⟨v, rfl, hv⟩ :=
        (complete_object_iff.mp hcomplete _ hmem).exists_node
      have hkey : k ∈ members.map Prod.fst := List.mem_map_of_mem hmem
      have hb := NodeObject.getImpl_of_find hk
      have hc := NodeObject.getImpl_of_find
        (find_overlayObject_node value hov.keysNodup hk)
      rw [hb, hc]
      refine ⟨?_, fun _ h => absurd hkey h, ?_, ?_, fun _ => .inr hkey⟩
      · intro _ hnot
        have ha : NodeObject.getImpl value k = none := by
          rw [NodeObject.getImpl, AssocMap.find_eq_none_iff.mpr hnot]
        rw [ha]
        rfl
      · intro x y hx hy hobjects harrays
        cases hy
        rw [hx]
        exact congrArg some (overlayVisit_replaced hobjects harrays)
      · intro l l' hl hl'
        cases hl'
        rw [hl]
        exact ⟨_, rfl,
          NodeArray.getElem?_overlayImpl (hv.arraysHoldNodes l' .refl)⟩

/--
**`overlay` is a deep merge** in which the overlay wins and nothing is lost: at
every path at which both hold an object, the members are those of either one.
-/
theorem overlay_merge
    (n ov : Node D)
    (hn : n.Complete)
    (hnkeys : n.DistinctKeys)
    (hov : ov.Complete)
    (hovkeys : ov.DistinctKeys) :
    ∃ r, n.overlay (some ov) = .ok (some r) ∧
      (∀ q value members, n.objectAt q = some value →
        ov.objectAt q = some members →
          ∃ result, r.objectAt q = some result ∧
            ∀ k, MergedMember value members result k
              (n.get (q ++ [k])) (ov.get (q ++ [k])) (r.get (q ++ [k]))) ∧
      r.Complete ∧
      (∃ m, n.overlay (some n) = .ok (some m) ∧ m.Equal n) ∧
      ∃ m, r.overlay (some ov) = .ok (some m) ∧ m.Equal r := by
  have hmeets := markersMeet_of_complete hov n
  refine ⟨overlayVisit ov n, rfl, ?_, hmeets.complete hovkeys hn hnkeys,
    ⟨_, rfl, overlayVisit_self hn hnkeys⟩,
    ⟨_, rfl, hmeets.overlay_overlay hovkeys⟩⟩
  intro q value members hvalue hmembers
  have hresult := objectAt_overlayVisit hovkeys hvalue hmembers
  refine ⟨_, hresult, ?_⟩
  intro k
  have hq := get_of_objectAt hmembers
  have hkeys : (Node.object members).DistinctKeys := by
    have := hovkeys.get q
    rwa [hq] at this
  rw [get_append_object (get_of_objectAt hvalue), get_append_object hq,
    get_append_object (get_of_objectAt hresult)]
  exact mergedMember_overlayObject hkeys (hov.get hq) k

end Merge

/-- The overlay of `node_test`: one member is merged, one is added. -/
theorem overlay_merge_test :
    letI := constantHash
    let n : Node Int := ofJson
      (.object [("key", .object [("hello", .string "world"), ("foo", .number 12)])])
    let m : Node Int := ofJson
      (.object [("key", .object [("bar", .number 12)]),
        ("foo", .array [.string "blub"])])
    ∃ r, n.overlay (some m) = .ok (some r) ∧
      r.get ["key", "foo"] = some (.double 12) ∧
      r.get ["key", "bar"] = some (.double 12) ∧
      r.get ["foo"] = some (.array [some (.string "blub")]) := by
  intro n m
  let := constantHash
  obtain ⟨r, hr, hmerge, _⟩ := overlay_merge n m (complete_ofJson _)
    (distinctKeys_ofJson _) (complete_ofJson _) (distinctKeys_ofJson _)
  obtain ⟨_, _, hroot⟩ := hmerge [] _ _ rfl rfl
  obtain ⟨_, _, hkey⟩ := hmerge ["key"] _ _ rfl rfl
  refine ⟨r, hr, ?_, ?_, ?_⟩
  · exact (hkey "foo").kept (by decide) (by decide)
  · exact (hkey "bar").added (by decide) (by decide)
  · exact (hroot "foo").added (by decide) (by decide)

end Node

end AgencyNode
