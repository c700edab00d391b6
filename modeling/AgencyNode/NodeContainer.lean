import AgencyNode.Lib.KeyedTree
import AgencyNode.Node

/-!
# Nodes as keyed trees

`nodeRep` presents nodes as a tree representation, so that the laws of reading
and writing along paths apply to them.  `get` and `set` of the source are those
of the representation as long as no component of the path is used as the array
index `2 ^ 64 - 1`, with which the padding loop never ends.
-/

namespace AgencyNode

open Lib

variable {D : Type}

/-! ## The padding loop -/

namespace NodeArray

theorem size_le_iff
    {value : NodeArray D}
    {index : Nat}
    (hindex : index < sizeTMax) :
    size value ≤ index ↔ value.length ≤ index := by
  unfold size
  omega

/-- The loop ends after as many rounds as there are elements missing. -/
theorem padLoop_eq
    {index : Nat}
    (hindex : index < sizeTMax)
    (fuel : Nat)
    (value : NodeArray D)
    (hfuel : index + 1 ≤ fuel + value.length) :
    padLoop index fuel value = .ok (padTo .null value (index + 1)) := by
  induction fuel generalizing value with
  | zero =>
      have hlen : ¬ size value ≤ index := by
        rw [size_le_iff hindex]
        omega
      have hpad : index + 1 - value.length = 0 := by omega
      simp [padLoop, padTo, hlen, hpad]
  | succ fuel ih =>
      by_cases hlen : size value ≤ index
      · have hlen' := (size_le_iff hindex).mp hlen
        have hstep :
            index + 1 - value.length =
              (index + 1 - (value ++ [some (Node.null : Node D)]).length) + 1 := by
          simp
          omega
        have hnext :=
          ih (value ++ [some (Node.null : Node D)]) (by simp; omega)
        rw [padLoop, if_pos hlen, hnext, padTo, padTo, hstep,
          List.replicate_succ]
        simp
      · have hlen' : ¬ value.length ≤ index := by
          rwa [size_le_iff hindex] at hlen
        rw [padLoop, if_neg hlen, padTo_of_le (by omega)]

/-- With the largest index the loop does not end, whatever the array. -/
theorem padLoop_sizeTMax
    (fuel : Nat)
    (value : NodeArray D) :
    padLoop sizeTMax fuel value = .error .nonTermination := by
  have hsize : ∀ v : NodeArray D, size v ≤ sizeTMax := by
    intro v
    unfold size
    omega
  induction fuel generalizing value with
  | zero =>
      simp [padLoop, hsize]
  | succ fuel ih =>
      rw [padLoop, if_pos (hsize value)]
      exact ih _

theorem getImpl_of_index
    {value : NodeArray D}
    {key : String}
    {i : Nat}
    (hkey : stringToNumber key = some i)
    (hi : i < sizeTMax) :
    getImpl value key = value.getD i none := by
  simp only [getImpl, hkey]
  split
  · rename_i hsize
    have hlen := (size_le_iff hi).mp hsize
    rw [List.getD_eq_default _ _ hlen]
  · rfl

theorem getImpl_of_none
    {value : NodeArray D}
    {key : String}
    (hkey : stringToNumber key = none) :
    getImpl value key = none := by
  simp [getImpl, hkey]

end NodeArray

/-! ## The representation -/

/-- The shape of a node; scalars are leaves. -/
def Node.shape : Node D → Shape (Node D) (NodeObject D)
  | .array value => .array value
  | .object value => .object value
  | _ => .leaf

/-- Nodes as a tree representation. -/
def nodeRep (D : Type) : TreeRep (Node D) (NodeObject D) String where
  shape := Node.shape
  array := .array
  object := .object
  null := .null
  entry := AssocMap.find
  empty := []
  store := AssocMap.set
  erase := AssocMap.erase
  index := stringToNumber
  name := stdToString
  shape_array := fun _ => rfl
  shape_object := fun _ => rfl
  shape_null := rfl
  entry_empty := fun _ => rfl
  entry_store_self := AssocMap.find_set_self
  entry_store_ne := fun m _ _ v hne => AssocMap.find_set_ne m v hne
  entry_erase_self := AssocMap.find_erase_self
  entry_erase_ne := fun m _ _ hne => AssocMap.find_erase_ne m hne
  name_injective := stdToString_injective
  index_name := by
    intro i
    rw [stringToNumber_stdToString]
    simp

/-- One level of a node. -/
abbrev nodeContainer (D : Type) : Container (NodePtr D) String :=
  (nodeRep D).container

/-- No array index is asked for with which the padding loop never ends. -/
def IndexInBounds (key : String) : Prop :=
  stringToNumber key ≠ some sizeTMax

instance : DecidablePred IndexInBounds := fun key =>
  inferInstanceAs (Decidable (stringToNumber key ≠ some sizeTMax))

/-- Every component of the path is in bounds. -/
def PathInBounds (path : Path) : Prop :=
  ∀ key ∈ path, IndexInBounds key

instance : DecidablePred PathInBounds := fun path =>
  inferInstanceAs (Decidable (∀ key ∈ path, IndexInBounds key))

/-- Every component of the path is canonical. -/
def CanonicalPath (path : Path) : Prop :=
  ∀ key ∈ path, CanonicalComponent key

instance : DecidablePred CanonicalPath := fun path =>
  inferInstanceAs (Decidable (∀ key ∈ path, CanonicalComponent key))

theorem CanonicalComponent.inBounds
    {key : String}
    (h : CanonicalComponent key) :
    IndexInBounds key := by
  intro hkey
  exact absurd (h.index_lt hkey) (Nat.lt_irrefl _)

theorem CanonicalComponent.canonical
    {key : String}
    (h : CanonicalComponent key) :
    (nodeRep D).Canonical key := by
  intro i hi
  exact h.eq_stdToString hi

theorem CanonicalPath.inBounds
    {path : Path}
    (h : CanonicalPath path) :
    PathInBounds path := by
  intro key hkey
  exact (h key hkey).inBounds

theorem CanonicalPath.canonical
    {path : Path}
    (h : CanonicalPath path) :
    ∀ key ∈ path, (nodeRep D).Canonical key := by
  intro key hkey
  exact (h key hkey).canonical

theorem IndexInBounds.index_lt
    {key : String}
    {i : Nat}
    (h : IndexInBounds key)
    (hkey : stringToNumber key = some i) :
    i < sizeTMax := by
  have hlt := stringToNumber_lt hkey
  have hne : i ≠ sizeTMax := by
    rintro rfl
    exact h hkey
  simp [sizeTModulus, sizeTMax] at hlt hne ⊢
  omega

/--
No component of the path is used as the array index `2 ^ 64 - 1`; a component
that meets no array on its way is not used as an index at all.
-/
def IndexUseInBounds : NodePtr D → Path → Prop
  | _, [] => True
  | c, key :: path =>
      (∀ l, c = some (.array l) → IndexInBounds key) ∧
        IndexUseInBounds ((nodeContainer D).child c key) path

theorem PathInBounds.indexUse
    {path : Path}
    (h : PathInBounds path)
    (c : NodePtr D) :
    IndexUseInBounds c path := by
  induction path generalizing c with
  | nil =>
      trivial
  | cons key path ih =>
      refine ⟨fun _ _ => h key List.mem_cons_self, ih ?_ _⟩
      exact fun k hk => h k (List.mem_cons_of_mem _ hk)

theorem indexUseInBounds_append_iff
    {c : NodePtr D}
    {r p : Path} :
    IndexUseInBounds c (r ++ p) ↔
      IndexUseInBounds c r ∧
        IndexUseInBounds ((nodeContainer D).get c r) p := by
  induction r generalizing c with
  | nil =>
      simp [IndexUseInBounds]
  | cons key r ih =>
      rw [List.cons_append, IndexUseInBounds, IndexUseInBounds, ih,
        Container.get_cons, and_assoc]

/-- The containers a write leaves behind use no other indices. -/
theorem IndexUseInBounds.set
    {c : NodePtr D}
    {path : Path}
    (h : IndexUseInBounds c path)
    (v : NodePtr D) :
    IndexUseInBounds ((nodeContainer D).set c path v) path := by
  induction path generalizing c with
  | nil =>
      trivial
  | cons key path ih =>
      refine ⟨?_, ?_⟩
      · intro l hl
        have harray : ∃ l, c = some (.array l) := by
          match c, hl with
          | some (.array l), _ => exact ⟨l, rfl⟩
        obtain ⟨l, hc⟩ := harray
        exact h.1 l hc
      · rw [Container.set_cons, TreeRep.container_child,
          TreeRep.container_put, TreeRep.child_put_self]
        exact ih h.2

/-! ## One level -/

namespace NodeArray

theorem toMembers_eq
    (i : Nat)
    (value : NodeArray D)
    (result : NodeObject D) :
    toMembers i value result = (nodeRep D).membersFrom i value result := by
  induction value generalizing i result with
  | nil =>
      rfl
  | cons v value ih =>
      exact ih (i + 1) _

theorem getImpl_eq
    {value : NodeArray D}
    {key : String}
    (hkey : IndexInBounds key) :
    getImpl value key = (nodeContainer D).child (some (.array value)) key := by
  have hshape : (nodeRep D).shapeOf (some (.array value)) = .array value := rfl
  cases hnum : stringToNumber key with
  | none =>
      have hindex : (nodeRep D).index key = none := hnum
      simp only [getImpl_of_none hnum, TreeRep.container_child, TreeRep.child,
        hshape, hindex]
  | some i =>
      have hindex : (nodeRep D).index key = some i := hnum
      simp only [getImpl_of_index hnum (hkey.index_lt hnum),
        TreeRep.container_child, TreeRep.child, hshape, hindex]

theorem setImpl_eq
    {value : NodeArray D}
    {key : String}
    {v : NodePtr D}
    (hkey : IndexInBounds key) :
    setImpl value key v =
      .ok ((nodeContainer D).put (some (.array value)) key v) := by
  change _ = Except.ok (some ((nodeRep D).putElement value key v))
  cases hnum : stringToNumber key with
  | none =>
      have hindex : (nodeRep D).index key = none := hnum
      simp only [setImpl, hnum, TreeRep.putElement, hindex, toMembers_eq]
      rfl
  | some i =>
      have hindex : (nodeRep D).index key = some i := hnum
      have hpad := padLoop_eq (hkey.index_lt hnum) (i + 1) value (by omega)
      simp only [setImpl, hnum, TreeRep.putElement, hindex, hpad]
      rfl

end NodeArray

namespace NodeObject

theorem getImpl_eq
    (value : NodeObject D)
    (key : String) :
    getImpl value key = (nodeContainer D).child (some (.object value)) key := by
  change _ = (AssocMap.find value key).getD none
  unfold getImpl
  cases AssocMap.find value key <;> rfl

theorem setImpl_eq
    (value : NodeObject D)
    (key : String)
    (v : NodePtr D) :
    setImpl value key v = (nodeContainer D).put (some (.object value)) key v := by
  cases v <;> rfl

end NodeObject

/-! ## `get` and `set` along a path -/

namespace Node

@[simp] theorem get_nil
    (n : Node D) :
    n.get [] = some n := by
  cases n <;> rfl

/-- What `node_set_visitor` computes before it calls `set_impl`. -/
def newChild (child : NodePtr D) (tail : Path) (node : NodePtr D) : Exec (NodePtr D) :=
  match child with
  | some child => child.set tail node
  | none => .ok (nodeAtPath tail node)

theorem set_array_cons
    (c : NodeArray D)
    (head : String)
    (tail : Path)
    (node : NodePtr D) :
    (Node.array c).set (head :: tail) node =
      newChild (NodeArray.getImpl c head) tail node >>=
        NodeArray.setImpl c head := by
  rw [set]
  cases NodeArray.getImpl c head <;> rfl

theorem set_object_cons
    (c : NodeObject D)
    (head : String)
    (tail : Path)
    (node : NodePtr D) :
    (Node.object c).set (head :: tail) node =
      newChild (NodeObject.getImpl c head) tail node >>=
        fun v => .ok (NodeObject.setImpl c head v) := by
  rw [set]
  cases NodeObject.getImpl c head <;> rfl

/-- What `node_at_path` and `set` do below a leaf. -/
theorem put_leaf
    (c : NodePtr D)
    (key : String)
    (v : NodePtr D)
    (hc : (nodeRep D).shapeOf c = .leaf) :
    (nodeContainer D).put c key v = some (.object (NodeObject.ofMember key v)) := by
  change TreeRep.put _ _ _ _ = _
  unfold TreeRep.put
  rw [hc]
  rfl

theorem child_leaf
    (c : NodePtr D)
    (key : String)
    (hc : (nodeRep D).shapeOf c = .leaf) :
    (nodeContainer D).child c key = none := by
  change TreeRep.child _ _ _ = _
  unfold TreeRep.child
  rw [hc]

theorem shapeOf_eq_array_iff
    {c : NodePtr D}
    {l : NodeArray D} :
    (nodeRep D).shapeOf c = .array l ↔ c = some (.array l) := by
  constructor
  · intro h
    match c, h with
    | some (.array _), rfl => rfl
  · rintro rfl
    rfl

theorem shapeOf_eq_object_iff
    {c : NodePtr D}
    {m : NodeObject D} :
    (nodeRep D).shapeOf c = .object m ↔ c = some (.object m) := by
  constructor
  · intro h
    match c, h with
    | some (.object _), rfl => rfl
  · rintro rfl
    rfl

/-- `node::get` iterates the container. -/
theorem get_eq
    (n : Node D)
    (path : Path)
    (hpath : IndexUseInBounds (some n) path) :
    n.get path = (nodeContainer D).get (some n) path := by
  induction path generalizing n with
  | nil =>
      simp
  | cons head tail ih =>
      obtain ⟨hhead, htail⟩ := hpath
      rw [Container.get_cons]
      cases n with
      | array c =>
          rw [get, NodeArray.getImpl_eq (hhead c rfl)]
          cases hchild : (nodeContainer D).child (some (.array c)) head with
          | none =>
              exact (Container.get_of_childless (fun _ => rfl) tail).symm
          | some child =>
              exact ih child (hchild ▸ htail)
      | object c =>
          rw [get, NodeObject.getImpl_eq]
          cases hchild : (nodeContainer D).child (some (.object c)) head with
          | none =>
              exact (Container.get_of_childless (fun _ => rfl) tail).symm
          | some child =>
              exact ih child (hchild ▸ htail)
      | _ =>
          rw [child_leaf _ _ rfl]
          exact (Container.get_of_childless (fun _ => rfl) tail).symm

/-- `node::node_at_path` writes below `nullptr`. -/
theorem nodeAtPath_eq
    (path : Path)
    (node : NodePtr D) :
    nodeAtPath path node = (nodeContainer D).set none path node := by
  induction path with
  | nil =>
      rfl
  | cons head tail ih =>
      rw [nodeAtPath, ih]
      rfl

/-- `node::set` iterates the container. -/
theorem set_eq
    (n : Node D)
    (path : Path)
    (node : NodePtr D)
    (hpath : IndexUseInBounds (some n) path) :
    n.set path node = .ok ((nodeContainer D).set (some n) path node) := by
  induction path generalizing n with
  | nil =>
      cases n <;> rfl
  | cons head tail ih =>
      obtain ⟨hhead, htail⟩ := hpath
      have hnew :
          newChild ((nodeContainer D).child (some n) head) tail node =
            .ok ((nodeContainer D).set
              ((nodeContainer D).child (some n) head) tail node) := by
        cases hchild : (nodeContainer D).child (some n) head with
        | none =>
            exact congrArg Except.ok (nodeAtPath_eq tail node)
        | some child =>
            exact ih child (hchild ▸ htail)
      rw [Container.set_cons]
      cases n with
      | array c =>
          rw [set_array_cons, NodeArray.getImpl_eq (hhead c rfl), hnew,
            Exec.ok_bind, NodeArray.setImpl_eq (hhead c rfl)]
      | object c =>
          rw [set_object_cons, NodeObject.getImpl_eq, hnew, Exec.ok_bind,
            NodeObject.setImpl_eq]
      | _ =>
          rw [put_leaf _ _ _ rfl, child_leaf _ _ rfl]
          exact congrArg Except.ok (nodeAtPath_eq (head :: tail) node)

/-- Below a non-empty path `set` returns a node. -/
theorem set_eq_some
    (n : Node D)
    (path : Path)
    (node : NodePtr D)
    (hpath : IndexUseInBounds (some n) path)
    (hne : path ≠ []) :
    ∃ m, n.set path node = .ok (some m) ∧
      some m = (nodeContainer D).set (some n) path node := by
  cases path with
  | nil =>
      exact absurd rfl hne
  | cons head tail =>
      have hsome := (nodeRep D).put_ne_none (some n) head
        ((nodeContainer D).set ((nodeContainer D).child (some n) head) tail node)
      obtain ⟨m, hm⟩ := Option.ne_none_iff_exists'.mp hsome
      refine ⟨m, ?_, ?_⟩
      · rw [set_eq n _ node hpath, Container.set_cons]
        exact congrArg Except.ok hm
      · exact hm.symm

/-! ## Where the padding loop does not end -/

theorem padLoop_error
    {index fuel : Nat}
    {value : NodeArray D}
    {e : Fault}
    (h : NodeArray.padLoop index fuel value = .error e) :
    e = .nonTermination := by
  induction fuel generalizing value with
  | zero =>
      rw [NodeArray.padLoop] at h
      split at h
      · cases h
        rfl
      · cases h
  | succ fuel ih =>
      rw [NodeArray.padLoop] at h
      split at h
      · exact ih h
      · cases h

theorem setImpl_error
    {value : NodeArray D}
    {key : String}
    {v : NodePtr D}
    {e : Fault}
    (h : NodeArray.setImpl value key v = .error e) :
    e = .nonTermination := by
  unfold NodeArray.setImpl at h
  split at h
  · rename_i index _
    cases hpad : NodeArray.padLoop index (index + 1) value with
    | ok result =>
        rw [hpad] at h
        cases h
    | error e' =>
        rw [hpad] at h
        cases h
        exact padLoop_error hpad
  · cases h

/-- `set` fails only where the padding loop does not end. -/
theorem set_error
    {n : Node D}
    {p : Path}
    {v : NodePtr D}
    {e : Fault}
    (h : n.set p v = .error e) :
    e = .nonTermination := by
  induction p generalizing n with
  | nil =>
      cases n <;> cases h
  | cons head tail ih =>
      have hnew : ∀ child, newChild child tail v = .error e →
          e = .nonTermination := by
        intro child hchild
        cases child with
        | none =>
            cases hchild
        | some child =>
            exact ih hchild
      cases n with
      | array c =>
          rw [set_array_cons] at h
          cases hchild : newChild (NodeArray.getImpl c head) tail v with
          | ok x =>
              rw [hchild] at h
              exact setImpl_error h
          | error e' =>
              rw [hchild] at h
              cases h
              exact hnew _ hchild
      | object c =>
          rw [set_object_cons] at h
          cases hchild : newChild (NodeObject.getImpl c head) tail v with
          | ok x =>
              rw [hchild] at h
              cases h
          | error e' =>
              rw [hchild] at h
              cases h
              exact hnew _ hchild
      | _ =>
          cases h

theorem newChild_error
    {child : NodePtr D}
    {tail : Path}
    {v : NodePtr D}
    {e : Fault}
    (h : newChild child tail v = .error e) :
    e = .nonTermination := by
  cases child with
  | none =>
      cases h
  | some child =>
      exact set_error h

theorem indexUseInBounds_none
    (path : Path) :
    IndexUseInBounds (none : NodePtr D) path := by
  induction path with
  | nil =>
      trivial
  | cons key path ih =>
      refine ⟨?_, ih⟩
      intro l hl
      cases hl

/-- Where `2 ^ 64 - 1` is used as an index, no write ends. -/
theorem set_of_not_indexUse
    (n : Node D)
    (path : Path)
    (node : NodePtr D)
    (hpath : ¬ IndexUseInBounds (some n) path) :
    n.set path node = .error .nonTermination := by
  induction path generalizing n with
  | nil =>
      exact absurd trivial hpath
  | cons head tail ih =>
      have hnew :
          (∀ l, n = .array l → IndexInBounds head) →
          newChild ((nodeContainer D).child (some n) head) tail node =
            .error .nonTermination := by
        intro hhead
        have htail : ¬ IndexUseInBounds
            ((nodeContainer D).child (some n) head) tail := by
          intro htail
          refine hpath ⟨?_, htail⟩
          intro l hl
          exact hhead l (Option.some.inj hl)
        cases hchild : (nodeContainer D).child (some n) head with
        | none =>
            rw [hchild] at htail
            exact absurd (indexUseInBounds_none tail) htail
        | some child =>
            rw [hchild] at htail
            exact ih child htail
      cases n with
      | array c =>
          rw [set_array_cons]
          by_cases hhead : IndexInBounds head
          · rw [NodeArray.getImpl_eq hhead, hnew fun _ _ => hhead]
            rfl
          · have hindex : stringToNumber head = some sizeTMax :=
              not_not.mp hhead
            cases hchild : newChild (NodeArray.getImpl c head) tail node with
            | ok v =>
                simp [NodeArray.setImpl, hindex, NodeArray.padLoop_sizeTMax]
            | error e =>
                -- The new child is computed before the array is padded.
                rw [newChild_error hchild]
                rfl
      | object c =>
          rw [set_object_cons, NodeObject.getImpl_eq,
            hnew fun l hl => by cases hl]
          rfl
      | _ =>
          have hchild := hnew fun l hl => by cases hl
          rw [child_leaf _ _ rfl] at hchild
          cases hchild

/-- **Two writes to one place differ as far as the values do.** -/
theorem set_eq_set_iff
    (n : Node D)
    (path : Path)
    (v w : NodePtr D) :
    n.set path v = n.set path w ↔
      v = w ∨ ¬ IndexUseInBounds (some n) path := by
  constructor
  · intro h
    by_cases hpath : IndexUseInBounds (some n) path
    · left
      rw [set_eq n path v hpath, set_eq n path w hpath] at h
      have hget := congrArg ((nodeContainer D).get · path) (Except.ok.inj h)
      simpa only [TreeRep.get_set_self] using hget
    · exact .inr hpath
  · rintro (rfl | hpath)
    · rfl
    · rw [n.set_of_not_indexUse path v hpath,
        n.set_of_not_indexUse path w hpath]

end Node

end AgencyNode
