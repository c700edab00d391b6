import AgencyNode.Lib.ExtensionalTree
import AgencyNode.NodeContainer

/-!
# The tree of a node

A node is kept as a list of entries for every object, newest first.  The tree
it denotes forgets that order: its objects are finite maps from keys to
children and its arrays are sequences.  Two nodes are equal as trees if they
denote the same tree.  A member that holds `nullptr` is told apart from a member
that does not exist.
-/

namespace AgencyNode

open Lib

/-- Trees whose objects are maps and whose arrays are sequences. -/
inductive Tree (D : Type) where
  | string (value : String)
  | double (value : D)
  | bool (value : Bool)
  | array (value : List (Option (Tree D)))
  | object (value : String → Option (Option (Tree D)))
  | null

variable {D : Type}

namespace Node

mutual

/-- The tree a node denotes. -/
def denote : Node D → Tree D
  | .string value => .string value
  | .double value => .double value
  | .bool value => .bool value
  | .array value => .array (denoteElements value)
  | .object value => .object (AssocMap.find (denoteMembers value))
  | .null => .null

def denotePtr : Option (Node D) → Option (Tree D)
  | none => none
  | some n => some (denote n)

def denoteElements : List (Option (Node D)) → List (Option (Tree D))
  | [] => []
  | v :: value => denotePtr v :: denoteElements value

def denoteMembers :
    List (String × Option (Node D)) → List (String × Option (Tree D))
  | [] => []
  | member :: value => denoteMember member :: denoteMembers value

def denoteMember : String × Option (Node D) → String × Option (Tree D)
  | (key, v) => (key, denotePtr v)

end

theorem denotePtr_eq
    (c : NodePtr D) :
    denotePtr c = c.map denote := by
  cases c <;> rfl

theorem denoteElements_eq
    (value : NodeArray D) :
    denoteElements value = value.map (Option.map denote) := by
  induction value with
  | nil =>
      rfl
  | cons v value ih =>
      rw [denoteElements, denotePtr_eq, ih, List.map_cons]

theorem denoteMembers_eq
    (value : NodeObject D) :
    denoteMembers value =
      value.map (fun member => (member.1, member.2.map denote)) := by
  induction value with
  | nil =>
      rfl
  | cons member value ih =>
      rw [denoteMembers, ih, List.map_cons, denoteMember, denotePtr_eq]

/-- Equality of nodes as trees. -/
def Equal (n m : Node D) : Prop :=
  n.denote = m.denote

end Node

namespace Node

/-- Arrays are equal element by element. -/
theorem equal_array_iff
    {value value' : NodeArray D} :
    (Node.array value).Equal (.array value') ↔
      value.map denotePtr = value'.map denotePtr := by
  have hdenote : ∀ l : NodeArray D, denoteElements l = l.map denotePtr := by
    intro l
    rw [denoteElements_eq]
    exact List.map_congr_left fun c _ => (denotePtr_eq c).symm
  simp only [Equal, denote, hdenote, Tree.array.injEq]

/-- Objects are equal member by member. -/
theorem equal_object_iff
    {value value' : NodeObject D} :
    (Node.object value).Equal (.object value') ↔
      ∀ k, (AssocMap.find value k).map denotePtr =
        (AssocMap.find value' k).map denotePtr := by
  have hdenote : ∀ (m : NodeObject D) (k : String),
      AssocMap.find (denoteMembers m) k = (AssocMap.find m k).map denotePtr := by
    intro m k
    rw [denoteMembers_eq, AssocMap.find_map]
    exact congrArg (fun f => (AssocMap.find m k).map f)
      (funext fun c => (denotePtr_eq c).symm)
  simp only [Equal, denote, Tree.object.injEq, funext_iff, hdenote]

theorem Equal.refl
    (n : Node D) :
    n.Equal n := by
  rfl

/-- A string, a number, a Boolean or null. -/
def IsScalar : Node D → Prop
  | .array _ => False
  | .object _ => False
  | _ => True

/-- A scalar is equal to itself only. -/
theorem Equal.eq_of_isScalar
    {n m : Node D}
    (h : n.Equal m)
    (hm : m.IsScalar) :
    n = m := by
  cases m with
  | array _ => exact hm.elim
  | object _ => exact hm.elim
  | _ => cases n <;> simp_all [Equal, denote]

end Node

/-- Equality of `node_ptr`s as trees; `nullptr` equals itself only. -/
def NodePtr.Equal (c d : NodePtr D) : Prop :=
  Node.denotePtr c = Node.denotePtr d

@[simp] theorem NodePtr.equal_some_iff
    {n m : Node D} :
    NodePtr.Equal (some n) (some m) ↔ n.Equal m := by
  simp [NodePtr.Equal, Node.Equal, Node.denotePtr]

namespace Tree

/-- The shape of a tree. -/
def shape : Tree D → Shape (Tree D) (String → Option (Option (Tree D)))
  | .array value => .array value
  | .object value => .object value
  | _ => .leaf

end Tree

/-- Trees as a representation of themselves. -/
def treeRep (D : Type) :
    TreeRep (Tree D) (String → Option (Option (Tree D))) String where
  shape := Tree.shape
  array := .array
  object := .object
  null := .null
  entry := fun value key => value key
  empty := fun _ => none
  store := fun value key v key' => if key = key' then some v else value key'
  erase := fun value key key' => if key = key' then none else value key'
  index := stringToNumber
  name := stdToString
  shape_array := fun _ => rfl
  shape_object := fun _ => rfl
  shape_null := rfl
  entry_empty := fun _ => rfl
  entry_store_self := fun _ _ _ => if_pos rfl
  entry_store_ne := fun _ _ _ _ hne => if_neg hne
  entry_erase_self := fun _ _ => if_pos rfl
  entry_erase_ne := fun _ _ _ hne => if_neg hne
  name_injective := (nodeRep D).name_injective
  index_name := (nodeRep D).index_name

theorem treeRep_extensional :
    (treeRep D).Extensional where
  members_ext := fun _ _ h => funext h
  array_eta := by
    intro q l h
    cases q <;> cases h
    rfl
  object_eta := by
    intro q m h
    cases q <;> cases h
    rfl

/-- Denotation is a homomorphism of tree representations. -/
def denoteHom (D : Type) : TreeHom (nodeRep D) (treeRep D) where
  map := Node.denote
  mapMembers := fun value => AssocMap.find (Node.denoteMembers value)
  map_array := by
    intro l
    exact congrArg Tree.array (Node.denoteElements_eq l)
  map_object := fun _ => rfl
  map_null := rfl
  shape_map := by
    intro q
    cases q with
    | array value =>
        exact congrArg Shape.array (Node.denoteElements_eq value)
    | _ =>
        rfl
  entry_map := by
    intro m k
    change AssocMap.find (Node.denoteMembers m) k = _
    rw [Node.denoteMembers_eq]
    exact AssocMap.find_map _ m k
  index_eq := fun _ => rfl
  name_eq := fun _ => rfl

/-- Reading commutes with denotation. -/
theorem denotePtr_get
    (c : NodePtr D)
    (p : Path) :
    Node.denotePtr ((nodeContainer D).get c p) =
      (treeRep D).container.get (Node.denotePtr c) p := by
  rw [Node.denotePtr_eq, Node.denotePtr_eq]
  exact ((denoteHom D).get_map c p).symm

/-- Equal trees hold equal trees. -/
theorem NodePtr.equal_get
    {c d : NodePtr D}
    (h : NodePtr.Equal c d)
    (p : Path) :
    NodePtr.Equal ((nodeContainer D).get c p) ((nodeContainer D).get d p) := by
  unfold NodePtr.Equal
  rw [denotePtr_get, denotePtr_get, h]

/-- Writing commutes with denotation. -/
theorem denotePtr_set
    (c : NodePtr D)
    (p : Path)
    (v : NodePtr D) :
    Node.denotePtr ((nodeContainer D).set c p v) =
      (treeRep D).container.set (Node.denotePtr c) p (Node.denotePtr v) := by
  rw [Node.denotePtr_eq, Node.denotePtr_eq, Node.denotePtr_eq]
  exact ((denoteHom D).set_map treeRep_extensional c p v).symm

@[simp] theorem denotePtr_eq_none
    {c : NodePtr D} :
    Node.denotePtr c = none ↔ c = none := by
  cases c <;> simp [Node.denotePtr]

/-- **Get-put** along a path, up to the order of members. -/
theorem equal_set_get_self
    (c : NodePtr D)
    (p : Path)
    (hne : (nodeContainer D).get c p ≠ none) :
    NodePtr.Equal
      ((nodeContainer D).set c p ((nodeContainer D).get c p)) c := by
  unfold NodePtr.Equal
  rw [denotePtr_set, denotePtr_get]
  apply treeRep_extensional.set_get_self
  rw [← denotePtr_get]
  simpa using hne

/-- **Put-put** along a path, up to the order of members. -/
theorem equal_set_set_self
    (c : NodePtr D)
    (p : Path)
    (v w : NodePtr D)
    (hw : w ≠ none) :
    NodePtr.Equal
      ((nodeContainer D).set ((nodeContainer D).set c p v) p w)
      ((nodeContainer D).set c p w) := by
  unfold NodePtr.Equal
  rw [denotePtr_set, denotePtr_set, denotePtr_set]
  apply treeRep_extensional.set_set_self
  simpa using hw

end AgencyNode
