import Mathlib.Data.List.TakeWhile
import AgencyNode.NodeContainer

/-!
# Nodes without `nullptr`

A node is complete if no array element and no object member anywhere below it
is `nullptr`.  On complete nodes `into_builder`, `operator<<` and `operator==`
never dereference `nullptr`.

`set` keeps a node complete, unless it is asked to write `nullptr` at a place
that is not a member of an existing object: only `node_object::set_impl` takes
`nullptr` for the request to erase.  The constructor of `node_object` and
`node_array::set_impl` store it.
-/

namespace AgencyNode

open Lib

variable {D : Type}

namespace Node

mutual

/-- No `nullptr` below the node. -/
def Complete : Node D → Prop
  | .array value => CompleteElements value
  | .object value => CompleteMembers value
  | _ => True

/-- Not `nullptr`, and none below. -/
def CompletePtr : Option (Node D) → Prop
  | none => False
  | some n => Complete n

def CompleteElements : List (Option (Node D)) → Prop
  | [] => True
  | v :: value => CompletePtr v ∧ CompleteElements value

def CompleteMembers : List (String × Option (Node D)) → Prop
  | [] => True
  | member :: value => CompleteMember member ∧ CompleteMembers value

def CompleteMember : String × Option (Node D) → Prop
  | (_, v) => CompletePtr v

end

@[simp] theorem completePtr_some
    {n : Node D} :
    CompletePtr (some n) ↔ n.Complete := by
  rfl

@[simp] theorem not_completePtr_none :
    ¬ CompletePtr (none : NodePtr D) := by
  exact id

theorem completeElements_iff
    {value : NodeArray D} :
    CompleteElements value ↔ ∀ v ∈ value, CompletePtr v := by
  induction value with
  | nil =>
      simp [CompleteElements]
  | cons v value ih =>
      simp [CompleteElements, ih]

theorem completeMembers_iff
    {value : NodeObject D} :
    CompleteMembers value ↔ ∀ member ∈ value, CompletePtr member.2 := by
  induction value with
  | nil =>
      simp [CompleteMembers]
  | cons member value ih =>
      obtain ⟨key, v⟩ := member
      rw [CompleteMembers, ih, List.forall_mem_cons]
      rfl

@[simp] theorem complete_array_iff
    {value : NodeArray D} :
    (Node.array value).Complete ↔ ∀ v ∈ value, CompletePtr v := by
  exact completeElements_iff

@[simp] theorem complete_object_iff
    {value : NodeObject D} :
    (Node.object value).Complete ↔ ∀ member ∈ value, CompletePtr member.2 := by
  exact completeMembers_iff

theorem CompletePtr.exists_node
    {c : NodePtr D}
    (h : CompletePtr c) :
    ∃ n, c = some n ∧ n.Complete := by
  cases c with
  | none =>
      exact absurd h not_completePtr_none
  | some n =>
      exact ⟨n, rfl, h⟩

/-! ## Reading -/

theorem complete_getImpl_array
    {value : NodeArray D}
    (h : (Node.array value).Complete)
    {key : String}
    {child : Node D}
    (hchild : NodeArray.getImpl value key = some child) :
    child.Complete := by
  unfold NodeArray.getImpl at hchild
  split at hchild
  · split at hchild
    · cases hchild
    · rename_i i _ hi
      by_cases hlen : i < value.length
      · rw [List.getD_eq_getElem _ _ hlen] at hchild
        have := complete_array_iff.mp h _ (List.getElem_mem hlen)
        rwa [hchild] at this
      · rw [List.getD_eq_default _ _ (Nat.not_lt.mp hlen)] at hchild
        cases hchild
  · cases hchild

theorem complete_getImpl_object
    {value : NodeObject D}
    (h : (Node.object value).Complete)
    {key : String}
    {child : Node D}
    (hchild : NodeObject.getImpl value key = some child) :
    child.Complete := by
  unfold NodeObject.getImpl at hchild
  split at hchild
  · rename_i v hfind
    subst hchild
    exact complete_object_iff.mp h _ (AssocMap.mem_of_find hfind)
  · cases hchild

/-- What `get` finds in a complete node is complete. -/
theorem Complete.get
    {n m : Node D}
    (h : n.Complete)
    {p : Path}
    (hm : n.get p = some m) :
    m.Complete := by
  induction p generalizing n with
  | nil =>
      rw [get_nil] at hm
      cases hm
      exact h
  | cons head tail ih =>
      cases n with
      | array c =>
          simp only [Node.get] at hm
          split at hm
          · rename_i child hchild
            exact ih (complete_getImpl_array h hchild) hm
          · cases hm
      | object c =>
          simp only [Node.get] at hm
          split at hm
          · rename_i child hchild
            exact ih (complete_getImpl_object h hchild) hm
          · cases hm
      | _ =>
          simp [Node.get] at hm

/-! ## Objects -/

theorem complete_set_member
    {value : NodeObject D}
    {key : String}
    {v : NodePtr D}
    (h : (Node.object value).Complete)
    (hv : CompletePtr v) :
    (Node.object (AssocMap.set value key v)).Complete := by
  rw [complete_object_iff] at h ⊢
  intro e he
  rcases AssocMap.mem_set.mp he with rfl | ⟨he, _⟩
  · exact hv
  · exact h e he

theorem complete_erase_member
    {value : NodeObject D}
    {key : String}
    (h : (Node.object value).Complete) :
    (Node.object (AssocMap.erase value key)).Complete := by
  rw [complete_object_iff] at h ⊢
  exact fun e he => h e (AssocMap.mem_erase.mp he).1

/-! ## Conversion from slices -/

mutual

/-- `from_slice` builds complete nodes. -/
theorem complete_ofJson :
    (s : Json D) → (ofJson s).Complete
  | .number _ => trivial
  | .string _ => trivial
  | .bool _ => trivial
  | .object members => complete_ofMembers members [] (by simp)
  | .array elements => complete_ofElements elements
  | .null => trivial

theorem complete_ofMembers :
    (members : List (String × Json D)) →
      (container : NodeObject D) →
        (Node.object container).Complete →
          (Node.object (ofMembers members container)).Complete
  | [], _, h => h
  | member :: members, container, h => by
      rw [ofMembers]
      exact complete_ofMembers members _
        (complete_set_member h (complete_ofJson member.2))

theorem complete_ofElements :
    (elements : List (Json D)) → (Node.array (ofElements elements)).Complete
  | [] => trivial
  | element :: elements =>
      ⟨complete_ofJson element, complete_ofElements elements⟩

end

/-! ## Writing -/

theorem complete_ofMember
    {key : String}
    {v : NodePtr D} :
    (Node.object (NodeObject.ofMember key v)).Complete ↔ CompletePtr v := by
  simp [NodeObject.ofMember, AssocMap.set, AssocMap.erase]

/-- `node_at_path` adds no `nullptr` to a complete node. -/
theorem completePtr_nodeAtPath
    {p : Path}
    {v : NodePtr D}
    (hv : CompletePtr v) :
    CompletePtr (nodeAtPath p v) := by
  induction p with
  | nil =>
      exact hv
  | cons head tail ih =>
      rw [nodeAtPath, completePtr_some, complete_ofMember]
      exact ih

theorem complete_padLoop
    {index fuel : Nat}
    {value result : NodeArray D}
    (h : (Node.array value).Complete)
    (hresult : NodeArray.padLoop index fuel value = .ok result) :
    (Node.array result).Complete := by
  induction fuel generalizing value with
  | zero =>
      rw [NodeArray.padLoop] at hresult
      split at hresult
      · cases hresult
      · cases hresult
        exact h
  | succ fuel ih =>
      rw [NodeArray.padLoop] at hresult
      split at hresult
      · refine ih ?_ hresult
        rw [complete_array_iff] at h ⊢
        intro v hv
        rcases List.mem_append.mp hv with hv | hv
        · exact h v hv
        · rw [List.mem_singleton.mp hv]
          trivial
      · cases hresult
        exact h

theorem complete_toMembers
    {i : Nat}
    {value : NodeArray D}
    {result : NodeObject D}
    (h : (Node.array value).Complete)
    (hresult : (Node.object result).Complete) :
    (Node.object (NodeArray.toMembers i value result)).Complete := by
  induction value generalizing i result with
  | nil =>
      exact hresult
  | cons v value ih =>
      rw [complete_array_iff] at h
      refine ih ?_ ?_
      · rw [complete_array_iff]
        exact fun w hw => h w (List.mem_cons_of_mem _ hw)
      · exact complete_set_member hresult (h v List.mem_cons_self)

/-- `node_array::set_impl` stores what it is given. -/
theorem complete_setImpl_array
    {value : NodeArray D}
    {key : String}
    {v r : NodePtr D}
    (h : (Node.array value).Complete)
    (hv : CompletePtr v)
    (hr : NodeArray.setImpl value key v = .ok r) :
    CompletePtr r := by
  unfold NodeArray.setImpl at hr
  split at hr
  · rename_i index _
    obtain ⟨result, hresult, hr⟩ := Exec.bind_eq_ok.mp hr
    cases hr
    have hpadded := complete_padLoop h hresult
    rw [completePtr_some, complete_array_iff] at *
    intro w hw
    rcases List.mem_or_eq_of_mem_set hw with hw | rfl
    · exact hpadded w hw
    · exact hv
  · cases hr
    exact complete_set_member (complete_toMembers h (by simp)) hv

/-- `node_object::set_impl` erases where it is given `nullptr`. -/
theorem complete_setImpl_object
    {value : NodeObject D}
    {key : String}
    {v : NodePtr D}
    (h : (Node.object value).Complete)
    (hv : ∀ m, v = some m → m.Complete) :
    CompletePtr (NodeObject.setImpl value key v) := by
  cases v with
  | none =>
      exact complete_erase_member h
  | some m =>
      exact complete_set_member h (hv m rfl)

/-- The path leads to a member of an object that exists. -/
def ParentIsObject (n : Node D) (p : Path) : Prop :=
  ∃ r key members, p = r ++ [key] ∧ n.get r = some (.object members)

theorem ParentIsObject.ne_nil
    {n : Node D}
    {p : Path}
    (h : n.ParentIsObject p) :
    p ≠ [] := by
  obtain ⟨r, key, members, rfl, _⟩ := h
  simp

theorem parentIsObject_singleton_iff
    {n : Node D}
    {key : String} :
    n.ParentIsObject [key] ↔ ∃ members, n = .object members := by
  constructor
  · rintro ⟨r, key', members, hp, hn⟩
    have hr : r = [] := by
      cases r with
      | nil =>
          rfl
      | cons k r =>
          simp at hp
    subst hr
    rw [get_nil] at hn
    exact ⟨members, Option.some.inj hn⟩
  · rintro ⟨members, rfl⟩
    exact ⟨[], key, members, rfl, get_nil _⟩

/-- An object stays the parent while other places are written. -/
theorem ParentIsObject.set
    {n m : Node D}
    {p o : Path}
    {v : NodePtr D}
    (h : n.ParentIsObject p)
    (hp : CanonicalPath p)
    (ho : CanonicalPath o)
    (hop : Container.Incomparable o p)
    (hm : n.set o v = .ok (some m)) :
    m.ParentIsObject p := by
  obtain ⟨r, key, members, rfl, hget⟩ := h
  have hr : CanonicalPath r := fun k hk => hp k (List.mem_append_left _ hk)
  rw [n.get_eq r (hr.inBounds.indexUse _)] at hget
  rw [n.set_eq o v (ho.inBounds.indexUse _)] at hm
  obtain ⟨members', hmembers'⟩ :=
    TreeRep.shapeOf_get_set ho.canonical hr.canonical hop
      (shapeOf_eq_object_iff.mpr hget) v
  refine ⟨r, key, members', rfl, ?_⟩
  rw [m.get_eq r (hr.inBounds.indexUse _), ← Except.ok.inj hm]
  exact shapeOf_eq_object_iff.mp hmembers'

/-- The child of a container; a scalar has none. -/
def childImpl : Node D → String → NodePtr D
  | .array c, key => NodeArray.getImpl c key
  | .object c, key => NodeObject.getImpl c key
  | _, _ => none

theorem get_cons_eq_some
    {n m : Node D}
    {head : String}
    {tail : Path}
    (h : n.get (head :: tail) = some m) :
    ∃ child, n.childImpl head = some child ∧ child.get tail = some m := by
  cases n with
  | array c =>
      simp only [Node.get] at h
      split at h
      · rename_i child hchild
        exact ⟨child, hchild, h⟩
      · cases h
  | object c =>
      simp only [Node.get] at h
      split at h
      · rename_i child hchild
        exact ⟨child, hchild, h⟩
      · cases h
  | _ =>
      simp [Node.get] at h

/-- Above its last key the path leads through children that exist. -/
theorem ParentIsObject.child
    {n : Node D}
    {head : String}
    {tail : Path}
    (h : n.ParentIsObject (head :: tail))
    (htail : tail ≠ []) :
    ∃ child, n.childImpl head = some child ∧ child.ParentIsObject tail := by
  obtain ⟨r, key, members, hp, hn⟩ := h
  cases r with
  | nil =>
      simp at hp
      exact absurd hp.2 htail
  | cons k r =>
      simp only [List.cons_append, List.cons.injEq] at hp
      obtain ⟨rfl, hp⟩ := hp
      obtain ⟨child, hchild, hget⟩ := get_cons_eq_some hn
      exact ⟨child, hchild, r, key, members, hp, hget⟩

theorem complete_childImpl
    {n child : Node D}
    {key : String}
    (h : n.Complete)
    (hchild : n.childImpl key = some child) :
    child.Complete := by
  cases n with
  | array c =>
      exact complete_getImpl_array h hchild
  | object c =>
      exact complete_getImpl_object h hchild
  | _ =>
      cases hchild

/-- **`set` keeps a node complete**, if `nullptr` is written to members only. -/
theorem Complete.set
    {n : Node D}
    {p : Path}
    {v x : NodePtr D}
    (h : n.Complete)
    (hv : ∀ m, v = some m → m.Complete)
    (hparent : v = none → n.ParentIsObject p)
    (hx : n.set p v = .ok x) :
    CompletePtr x := by
  induction p generalizing n x with
  | nil =>
      cases v with
      | none =>
          exact absurd rfl (hparent rfl).ne_nil
      | some m =>
          cases n <;> cases hx <;> exact hv m rfl
  | cons head tail ih =>
      by_cases herase : tail = [] ∧ v = none
      · obtain ⟨rfl, rfl⟩ := herase
        obtain ⟨members, rfl⟩ := parentIsObject_singleton_iff.mp (hparent rfl)
        have hset : (Node.object members).set [head] none =
            .ok (NodeObject.setImpl members head none) := by
          rw [set_object_cons]
          cases NodeObject.getImpl members head with
          | none =>
              rfl
          | some child =>
              cases child <;> rfl
        rw [hset] at hx
        cases hx
        exact complete_setImpl_object h hv
      · -- The new child is not `nullptr`, whatever there was before.
        have hnew : ∀ y : NodePtr D,
            newChild (n.childImpl head) tail v = .ok y → CompletePtr y := by
          intro y hy
          have hdown : v = none →
              ∃ child, n.childImpl head = some child ∧
                child.ParentIsObject tail := by
            intro hnone
            exact (hparent hnone).child (fun htail => herase ⟨htail, hnone⟩)
          cases hchild : n.childImpl head with
          | none =>
              rw [hchild] at hy
              cases hy
              cases v with
              | none =>
                  obtain ⟨child, hsome, _⟩ := hdown rfl
                  rw [hchild] at hsome
                  cases hsome
              | some m =>
                  exact completePtr_nodeAtPath (hv m rfl)
          | some child =>
              rw [hchild] at hy
              refine ih (complete_childImpl h hchild) ?_ hy
              intro hnone
              obtain ⟨child', hsome, hdown⟩ := hdown hnone
              rw [hchild] at hsome
              cases hsome
              exact hdown
        cases n with
        | array c =>
            rw [set_array_cons] at hx
            obtain ⟨y, hy, hx⟩ := Exec.bind_eq_ok.mp hx
            exact complete_setImpl_array h (hnew y hy) hx
        | object c =>
            rw [set_object_cons] at hx
            obtain ⟨y, hy, hx⟩ := Exec.bind_eq_ok.mp hx
            cases hx
            obtain ⟨m, rfl, hm⟩ := (hnew y hy).exists_node
            exact complete_set_member h hm
        | _ =>
            cases hx
            cases v with
            | none =>
                obtain ⟨child, hsome, _⟩ :=
                  (hparent rfl).child (fun htail => herase ⟨htail, rfl⟩)
                cases hsome
            | some m =>
                exact completePtr_nodeAtPath (hv m rfl)

/-- Writing `nullptr` keeps a node complete at members of objects only. -/
theorem complete_set_none_iff
    {n m : Node D}
    {p : Path}
    (hn : n.Complete)
    (hp : PathInBounds p)
    (hne : p ≠ [])
    (hm : n.set p none = .ok (some m)) :
    m.Complete ↔ n.ParentIsObject p := by
  refine ⟨?_, fun h => hn.set (by simp) (fun _ => h) hm⟩
  intro hcomplete
  rcases List.eq_nil_or_concat' p with rfl | ⟨r, key, rfl⟩
  · exact absurd rfl hne
  · have hr : PathInBounds r :=
      fun k hk => hp k (List.mem_append_left _ hk)
    rw [n.set_eq _ none (hp.indexUse _)] at hm
    have hparent : m.get r =
        (nodeContainer D).put ((nodeContainer D).get (some n) r) key none := by
      rw [m.get_eq r (hr.indexUse _), ← Except.ok.inj hm,
        Container.get_set_append (nodeRep D).child_put_self]
      rfl
    have hput : ∀ x, (nodeContainer D).put ((nodeContainer D).get (some n) r)
        key none = some x → x.Complete :=
      fun x hx => hcomplete.get (hparent.trans hx)
    rw [← n.get_eq r (hr.indexUse _)] at hput
    cases hshape : (nodeRep D).shapeOf (n.get r) with
    | object members =>
        exact ⟨r, key, members, rfl, shapeOf_eq_object_iff.mp hshape⟩
    | leaf =>
        have := hput _ (put_leaf _ key none hshape)
        exact absurd (complete_ofMember.mp this) not_completePtr_none
    | array l =>
        -- The array, or the object made of it, stores `nullptr` under the key.
        rw [shapeOf_eq_array_iff.mp hshape] at hput
        have hstored : ((nodeRep D).putElement l key none).Complete := hput _ rfl
        unfold TreeRep.putElement at hstored
        cases hkey : (nodeRep D).index key with
        | some i =>
            rw [hkey] at hstored
            have hi : i < (padTo .null l (i + 1)).length := by
              rw [length_padTo]
              omega
            exact (complete_array_iff.mp hstored none
              (List.mem_set hi none)).elim
        | none =>
            rw [hkey] at hstored
            exact (complete_object_iff.mp hstored (key, none)
              (AssocMap.mem_set.mpr (Or.inl rfl))).elim

/-! ## Traversals -/

theorem buildMembers_ok
    {members : List (String × Exec (Json D))}
    (h : ∀ member ∈ members, ∃ s, member.2 = .ok s) :
    ∃ result, buildMembers members = .ok result := by
  induction members with
  | nil =>
      exact ⟨[], rfl⟩
  | cons member members ih =>
      obtain ⟨s, hs⟩ := h member List.mem_cons_self
      obtain ⟨rest, hrest⟩ :=
        ih (fun m hm => h m (List.mem_cons_of_mem _ hm))
      exact ⟨(member.1, s) :: rest, by simp [buildMembers, hs, hrest]⟩

theorem equalMembers_ok
    {lefts : List (String × (NodePtr D → Exec Bool))}
    {rights : List (String × NodePtr D)}
    (hlefts : ∀ left ∈ lefts, ∀ c, CompletePtr c → ∃ b, left.2 c = .ok b)
    (hrights : ∀ right ∈ rights, CompletePtr right.2) :
    ∃ b, equalMembers lefts rights = .ok b := by
  induction lefts generalizing rights with
  | nil =>
      cases rights with
      | nil => exact ⟨true, rfl⟩
      | cons right rights => exact ⟨false, rfl⟩
  | cons left lefts ih =>
      cases rights with
      | nil =>
          exact ⟨false, rfl⟩
      | cons right rights =>
          obtain ⟨b, hb⟩ := hlefts left List.mem_cons_self right.2
            (hrights right List.mem_cons_self)
          obtain ⟨rest, hrest⟩ : ∃ b, equalMembers lefts rights = .ok b := ih
            (fun l hl => hlefts l (List.mem_cons_of_mem _ hl))
            (fun r hr => hrights r (List.mem_cons_of_mem _ hr))
          rw [equalMembers, hb]
          by_cases hkey : left.1 = right.1
          · cases b with
            | true => exact ⟨rest, by simp [hkey, hrest]⟩
            | false => exact ⟨false, by simp [hkey]⟩
          · exact ⟨false, by simp [hkey]⟩

section Traversals

variable [StdHash]

mutual

/-- `into_builder` returns on complete nodes. -/
theorem Complete.intoBuilder :
    (n : Node D) → n.Complete → ∃ s, n.intoBuilder = .ok s
  | .string value, _ => ⟨.string value, rfl⟩
  | .double value, _ => ⟨.number value, rfl⟩
  | .bool value, _ => ⟨.bool value, rfl⟩
  | .null, _ => ⟨.null, rfl⟩
  | .array value, h => by
      obtain ⟨elements, helements⟩ := CompleteElements.intoBuilder value h
      exact ⟨.array elements, by simp [Node.intoBuilder, helements]⟩
  | .object value, h => by
      have hmembers : ∀ member ∈
          ImmerMap.iterate (membersIntoBuilder value), ∃ s, member.2 = .ok s := by
        intro member hmember
        exact CompleteMembers.intoBuilder value h member
          (ImmerMap.mem_iterate.mp hmember)
      obtain ⟨members, hbuilt⟩ := buildMembers_ok hmembers
      exact ⟨.object members, by simp [Node.intoBuilder, hbuilt]⟩

theorem CompletePtr.intoBuilder :
    (c : Option (Node D)) → CompletePtr c → ∃ s, ptrIntoBuilder c = .ok s
  | none, h => absurd h not_completePtr_none
  | some n, h => Complete.intoBuilder n h

theorem CompleteElements.intoBuilder :
    (value : List (Option (Node D))) → CompleteElements value →
      ∃ elements, elementsIntoBuilder value = .ok elements
  | [], _ => ⟨[], rfl⟩
  | v :: value, h => by
      obtain ⟨element, helement⟩ := CompletePtr.intoBuilder v h.1
      obtain ⟨elements, helements⟩ := CompleteElements.intoBuilder value h.2
      exact ⟨element :: elements,
        by simp [elementsIntoBuilder, helement, helements]⟩

theorem CompleteMembers.intoBuilder :
    (value : List (String × Option (Node D))) → CompleteMembers value →
      ∀ member ∈ membersIntoBuilder value, ∃ s, member.2 = .ok s
  | [], _ => by simp [membersIntoBuilder]
  | member :: value, h => by
      rw [membersIntoBuilder, List.forall_mem_cons]
      exact ⟨CompleteMember.intoBuilder member h.1,
        CompleteMembers.intoBuilder value h.2⟩

theorem CompleteMember.intoBuilder :
    (member : String × Option (Node D)) → CompleteMember member →
      ∃ s, (memberIntoBuilder member).2 = .ok s
  | (_, v), h => CompletePtr.intoBuilder v h

end

variable [Double D]

/-- `operator<<` fails on a complete node only at a number that has no JSON text. -/
theorem Complete.print
    {n : Node D}
    (h : n.Complete)
    {e : Fault}
    (he : n.print = .error e) :
    e = .exception .noJsonEquivalent := by
  obtain ⟨s, hs⟩ := h.intoBuilder
  rw [Node.print, hs, Exec.ok_bind, Json.dump] at he
  split at he
  · cases he
  · cases he
    rfl

mutual

/-- `operator==` returns on complete nodes. -/
theorem Complete.eq :
    (n m : Node D) → n.Complete → m.Complete → ∃ b, n.eq m = .ok b
  | .array value, m, hn, hm => by
      cases m with
      | array other =>
          rw [Node.eq]
          split
          · exact CompleteElements.eq value other hn hm
          · exact ⟨false, rfl⟩
      | _ => exact ⟨false, rfl⟩
  | .object value, m, hn, hm => by
      cases m with
      | object other =>
          refine equalMembers_ok ?_ ?_
          · intro left hleft c hc
            exact CompleteMembers.eq value hn left
              (ImmerMap.mem_iterate.mp hleft) c hc
          · intro right hright
            exact complete_object_iff.mp hm right (ImmerMap.mem_iterate.mp hright)
      | _ => exact ⟨false, rfl⟩
  | .string value, m, _, _ => by
      cases m <;> exact ⟨_, rfl⟩
  | .double value, m, _, _ => by
      cases m <;> exact ⟨_, rfl⟩
  | .bool value, m, _, _ => by
      cases m <;> exact ⟨_, rfl⟩
  | .null, m, _, _ => by
      cases m <;> exact ⟨_, rfl⟩

theorem CompletePtr.eq :
    (c d : Option (Node D)) → CompletePtr c → CompletePtr d →
      ∃ b, ptrEq c d = .ok b
  | some n, some m, hc, hd => Complete.eq n m hc hd
  | none, _, hc, _ => absurd hc not_completePtr_none
  | some _, none, _, hd => absurd hd not_completePtr_none

theorem CompleteElements.eq :
    (value other : List (Option (Node D))) → CompleteElements value →
      CompleteElements other → ∃ b, equalElements value other = .ok b
  | [], other, _, _ => by cases other <;> exact ⟨true, rfl⟩
  | _ :: _, [], _, _ => ⟨true, rfl⟩
  | v :: value, w :: other, hv, hw => by
      obtain ⟨b, hb⟩ := CompletePtr.eq v w hv.1 hw.1
      obtain ⟨rest, hrest⟩ := CompleteElements.eq value other hv.2 hw.2
      rw [equalElements, hb]
      cases b with
      | true => exact ⟨rest, by simp [hrest]⟩
      | false => exact ⟨false, by simp⟩

theorem CompleteMembers.eq :
    (value : List (String × Option (Node D))) → CompleteMembers value →
      ∀ left ∈ memberComparisons value, ∀ c, CompletePtr c →
        ∃ b, left.2 c = .ok b
  | [], _ => by simp [memberComparisons]
  | member :: value, h => by
      rw [memberComparisons, List.forall_mem_cons]
      exact ⟨CompleteMember.eq member h.1, CompleteMembers.eq value h.2⟩

theorem CompleteMember.eq :
    (member : String × Option (Node D)) → CompleteMember member →
      ∀ c, CompletePtr c → ∃ b, (memberComparison member).2 c = .ok b
  | (_, v), h, c, hc => CompletePtr.eq v c h hc

end

end Traversals

end Node

namespace NodeArray

variable [StdHash] [Double D]

/-- `node_array::erase` drops the first element that is equal, if there is one. -/
theorem erase_eq_ok_iff
    {node : NodePtr D}
    {value result : NodeArray D} :
    NodeArray.erase node value = .ok result ↔
      (∃ front element back, value = front ++ element :: back ∧
        (∀ e ∈ front, Node.ptrEq node e = .ok false) ∧
          Node.ptrEq node element = .ok true ∧ result = front ++ back) ∨
        ((∀ e ∈ value, Node.ptrEq node e = .ok false) ∧ result = value) := by
  induction value generalizing result with
  | nil =>
      simp [NodeArray.erase, eq_comm]
  | cons current value ih =>
      rw [NodeArray.erase]
      cases hequal : Node.ptrEq node current with
      | error fault =>
          constructor
          · intro h
            cases h
          · rintro (⟨front, element, back, hl, hfront, helement, _⟩ | ⟨hl, _⟩)
            · cases front with
              | nil =>
                  cases hl
                  rw [hequal] at helement
                  cases helement
              | cons e front =>
                  cases hl
                  rw [hfront _ List.mem_cons_self] at hequal
                  cases hequal
            · rw [hl _ List.mem_cons_self] at hequal
              cases hequal
      | ok b =>
          cases b with
          | true =>
              constructor
              · intro h
                cases h
                exact .inl ⟨[], current, value, rfl, by simp, hequal, rfl⟩
              · rintro (⟨front, element, back, hl, hfront, helement, rfl⟩ | ⟨hl, _⟩)
                · cases front with
                  | nil =>
                      cases hl
                      rfl
                  | cons e front =>
                      cases hl
                      rw [hfront _ List.mem_cons_self] at hequal
                      cases hequal
                · rw [hl _ List.mem_cons_self] at hequal
                  cases hequal
          | false =>
              simp only [Exec.ok_bind, Bool.false_eq_true, if_false,
                Exec.bind_eq_ok]
              constructor
              · rintro ⟨rest, hrest, h⟩
                cases h
                rcases ih.mp hrest with
                  ⟨front, element, back, rfl, hfront, helement, rfl⟩ | ⟨hl, rfl⟩
                · exact .inl ⟨current :: front, element, back, rfl,
                    List.forall_mem_cons.mpr ⟨hequal, hfront⟩, helement, rfl⟩
                · exact .inr ⟨List.forall_mem_cons.mpr ⟨hequal, hl⟩, rfl⟩
              · rintro (⟨front, element, back, hl, hfront, helement, rfl⟩ | ⟨hl, rfl⟩)
                · cases front with
                  | nil =>
                      cases hl
                      rw [hequal] at helement
                      cases helement
                  | cons e front =>
                      cases hl
                      obtain ⟨_, hfront⟩ := List.forall_mem_cons.mp hfront
                      exact ⟨front ++ back, ih.mpr (.inl ⟨front, element, back,
                        rfl, hfront, helement, rfl⟩), rfl⟩
                · obtain ⟨_, hl⟩ := List.forall_mem_cons.mp hl
                  exact ⟨value, ih.mpr (.inr ⟨hl, rfl⟩), rfl⟩

/-- `node_array::erase` returns if every comparison does, and adds nothing. -/
theorem erase_ok
    {node : NodePtr D}
    {value : NodeArray D}
    (hcompare : ∀ c ∈ value, ∃ b, Node.ptrEq node c = .ok b) :
    ∃ result, NodeArray.erase node value = .ok result ∧ result ⊆ value := by
  classical
  let differs (c : NodePtr D) : Bool := decide (Node.ptrEq node c = .ok false)
  have hsplit : value.takeWhile differs ++ value.dropWhile differs = value :=
    List.takeWhile_append_dropWhile
  have hfront : ∀ c ∈ value.takeWhile differs, Node.ptrEq node c = .ok false := by
    intro c hc
    have hdiffers : differs c = true := List.mem_takeWhile_imp hc
    exact of_decide_eq_true hdiffers
  cases hback : value.dropWhile differs with
  | nil =>
      rw [hback, List.append_nil] at hsplit
      rw [hsplit] at hfront
      exact ⟨value, erase_eq_ok_iff.mpr (.inr ⟨hfront, rfl⟩), List.Subset.refl _⟩
  | cons element back =>
      rw [hback] at hsplit
      have hequal : Node.ptrEq node element = .ok true := by
        have hhead := List.head?_dropWhile_not differs value
        rw [hback] at hhead
        have hdiffers : ¬ Node.ptrEq node element = .ok false := by
          simpa [differs] using hhead
        obtain ⟨b, hb⟩ := hcompare element (by
          rw [← hsplit]
          exact List.mem_append_right _ List.mem_cons_self)
        cases b with
        | true => exact hb
        | false => exact absurd hb hdiffers
      refine ⟨value.takeWhile differs ++ back, ?_, ?_⟩
      · exact erase_eq_ok_iff.mpr
          (.inl ⟨_, element, back, hsplit.symm, hfront, hequal, rfl⟩)
      · intro c hc
        rw [← hsplit]
        rcases List.mem_append.mp hc with hc | hc
        · exact List.mem_append_left _ hc
        · exact List.mem_append_right _ (List.mem_cons_of_mem _ hc)

end NodeArray

end AgencyNode
