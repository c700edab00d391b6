import AgencyNode.HelperStrings
import AgencyNode.ImmerMap
import AgencyNode.Slice

/-!
# node.h and node.cpp

Persistent JSON trees and the operations on them, translated from the source.
A `node_ptr` is an `Option`: `nullptr` is `none`, and an operation that
dereferences it fails with `Fault.nullptrDereference`.  A container may hold
`nullptr`; nothing in its type prevents that.

Paths are lists of keys.  An `immer::flex_vector` is a list.
-/

namespace AgencyNode

open Lib

/-- A node of the tree; the alternatives of `node_value_variant`. -/
inductive Node (D : Type) where
  | string (value : String)
  | double (value : D)
  | bool (value : Bool)
  | array (value : List (Option (Node D)))
  | object (value : List (String × Option (Node D)))
  | null

/-- `node_ptr`. -/
abbrev NodePtr (D : Type) := Option (Node D)

/-- `node_array::container_type`. -/
abbrev NodeArray (D : Type) := List (NodePtr D)

/-- `node_object::container_type`. -/
abbrev NodeObject (D : Type) := ImmerMap (NodePtr D)

/-- `node::path_slice`. -/
abbrev Path := List String

variable {D : Type}

/-- Induction on the nodes below a node. -/
@[elab_as_elim] theorem Node.induction
    {motive : Node D → Prop}
    (string : ∀ value, motive (.string value))
    (double : ∀ value, motive (.double value))
    (bool : ∀ value, motive (.bool value))
    (array : ∀ value : NodeArray D,
      (∀ n, some n ∈ value → motive n) → motive (.array value))
    (object : ∀ value : NodeObject D,
      (∀ key n, (key, some n) ∈ value → motive n) → motive (.object value))
    (null : motive .null)
    (n : Node D) : motive n := by
  refine @Node.rec D motive
    (fun value => ∀ n, some n ∈ value → motive n)
    (fun value => ∀ key n, (key, some n) ∈ value → motive n)
    (fun c => ∀ n, c = some n → motive n)
    (fun member => ∀ n, member.2 = some n → motive n)
    string double bool array object null ?_ ?_ ?_ ?_ ?_ ?_ ?_ n
  · intro n h
    cases h
  · intro c value hc hvalue n h
    rcases List.mem_cons.mp h with h | h
    · exact hc n h.symm
    · exact hvalue n h
  · intro key n h
    cases h
  · intro member value hmember hvalue key n h
    rcases List.mem_cons.mp h with h | h
    · exact hmember n (congrArg Prod.snd h).symm
    · exact hvalue key n h
  · intro n h
    cases h
  · intro m hm n h
    cases h
    exact hm
  · intro key c hc n h
    exact hc n h

namespace NodePtr

/-- `operator*` and `operator->`. -/
def deref : NodePtr D → Exec (Node D)
  | some node => .ok node
  | none => .error .nullptrDereference

end NodePtr

/-! ## Arrays -/

namespace NodeArray

/-- `value.size()`.  No vector has more than `sizeTMax` elements. -/
def size (value : NodeArray D) : Nat :=
  min value.length sizeTMax

/-- `node_array::get_impl`. -/
def getImpl (value : NodeArray D) (key : String) : NodePtr D :=
  match stringToNumber key with
  | some i =>
      if i ≥ size value then
        none
      else
        value.getD i none
  | none => none

/--
The loop `while (index >= result.size()) result.push_back(node::null_node())`
for at most `fuel` rounds.
-/
def padLoop (index : Nat) : Nat → NodeArray D → Exec (NodeArray D)
  | 0, result =>
      if index ≥ size result then
        .error .nonTermination
      else
        .ok result
  | fuel + 1, result =>
      if index ≥ size result then
        padLoop index fuel (result ++ [some .null])
      else
        .ok result

/--
The loop that turns the elements into members: element `i` goes under the key
`std::to_string(i)`.
-/
def toMembers (i : Nat) : NodeArray D → NodeObject D → NodeObject D
  | [], result => result
  | v :: value, result =>
      toMembers (i + 1) value (AssocMap.set result (stdToString i) v)

/-- `node_array::set_impl`. -/
def setImpl
    (value : NodeArray D)
    (key : String)
    (v : NodePtr D) : Exec (NodePtr D) :=
  match stringToNumber key with
  | some index => do
      let result ← padLoop index (index + 1) value
      return some (.array (result.set index v))
  | none =>
      let result := toMembers 0 value []
      return some (.object (AssocMap.set result key v))

/-- `node_array::prepend`. -/
def prepend (value : NodeArray D) (node : NodePtr D) : NodeArray D :=
  node :: value

/-- `node_array::push`. -/
def push (value : NodeArray D) (node : NodePtr D) : NodeArray D :=
  value ++ [node]

/-- `node_array::pop`. -/
def pop (value : NodeArray D) : NodeArray D :=
  if value.isEmpty then value else value.take (value.length - 1)

/-- `node_array::shift`. -/
def shift (value : NodeArray D) : NodeArray D :=
  if value.isEmpty then value else value.drop 1

end NodeArray

/-! ## Objects -/

namespace NodeObject

/-- `node_object::get_impl`. -/
def getImpl (value : NodeObject D) (key : String) : NodePtr D :=
  match AssocMap.find value key with
  | some v => v
  | none => none

/-- `node_object::set_impl`: `nullptr` erases the member. -/
def setImpl
    (value : NodeObject D)
    (key : String)
    (v : NodePtr D) : NodePtr D :=
  match v with
  | none => some (.object (AssocMap.erase value key))
  | some v => some (.object (AssocMap.set value key (some v)))

/-- The constructor `node_object(key, v)`, which stores `v` as it is. -/
def ofMember (key : String) (v : NodePtr D) : NodeObject D :=
  AssocMap.set [] key v

end NodeObject

/-! ## Nodes -/

namespace Node

/-- `node::node_or_null`. -/
def nodeOrNull : NodePtr D → NodePtr D
  | none => some .null
  | some node => some node

/-- `node::node_at_path`. -/
def nodeAtPath : Path → NodePtr D → NodePtr D
  | [], node => node
  | head :: tail, node =>
      some (.object (NodeObject.ofMember head (nodeAtPath tail node)))

/-- `node::get`, with `node_visitor_get` on the containers. -/
def get (n : Node D) : Path → NodePtr D
  | [] => some n
  | head :: tail =>
      match n with
      | .array c =>
          match NodeArray.getImpl c head with
          | some child => child.get tail
          | none => none
      | .object c =>
          match NodeObject.getImpl c head with
          | some child => child.get tail
          | none => none
      | _ => none

/-- `node::has`. -/
def has (n : Node D) (path : Path) : Bool :=
  (n.get path).isSome

/-- `node::set`, with `node_set_visitor` on the containers. -/
def set (n : Node D) (path : Path) (node : NodePtr D) : Exec (NodePtr D) :=
  match path with
  | [] => .ok node
  | head :: tail =>
      match n with
      | .array c => do
          let newChild ←
            match NodeArray.getImpl c head with
            | some child => child.set tail node
            | none => .ok (nodeAtPath tail node)
          NodeArray.setImpl c head newChild
      | .object c => do
          let newChild ←
            match NodeObject.getImpl c head with
            | some child => child.set tail node
            | none => .ok (nodeAtPath tail node)
          return NodeObject.setImpl c head newChild
      | _ => .ok (nodeAtPath (head :: tail) node)

/-- `node::remove`. -/
def remove (n : Node D) (path : Path) : Exec (NodePtr D) :=
  n.set path none

end Node

/-- `node::transformation`. -/
abbrev Transformation (D : Type) := NodePtr D → Exec (NodePtr D)

/-- `node::transform_action`. -/
abbrev TransformAction (D : Type) := Path × Transformation D

/-- `node::fold_action`. -/
abbrev FoldAction (D : Type) (T : Type) := Path × (NodePtr D → Exec T)

namespace Node

/-- One round of the loop of `node::transform`. -/
def transformStep
    (n : Node D)
    (curNode : NodePtr D)
    (action : TransformAction D) : Exec (NodePtr D) := do
  let cur ← curNode.deref
  let value ← action.2 (n.get action.1)
  cur.set action.1 value

/-- `node::transform`. -/
def transform
    (n : Node D)
    (operations : List (TransformAction D)) : Exec (NodePtr D) :=
  operations.foldlM (transformStep n) (some n)

/-- `node::fold`. -/
def fold
    {T : Type}
    (n : Node D)
    (actions : List (FoldAction D T))
    (f : T → T → T)
    (i : T) : Exec T :=
  actions.foldlM
    (fun i action => do
      let t ← action.2 (n.get action.1)
      return f i t)
    i

/-! ### Conversion from and to slices -/

mutual

/-- `node::from_slice` on a slice that is not None. -/
def ofJson : Json D → Node D
  | .number value => .double value
  | .string value => .string value
  | .bool value => .bool value
  | .object members => .object (ofMembers members [])
  | .array elements => .array (ofElements elements)
  | .null => .null

def ofMembers : List (String × Json D) → NodeObject D → NodeObject D
  | [], container => container
  | member :: members, container =>
      ofMembers members
        (AssocMap.set container member.1 (some (ofJson member.2)))

def ofElements : List (Json D) → NodeArray D
  | [] => []
  | element :: elements => some (ofJson element) :: ofElements elements

end

/-- `node::from_slice`. -/
def fromSlice : Slice D → Exec (NodePtr D)
  | some s => .ok (some (ofJson s))
  | none => .error .terminate

section Traversals

variable [StdHash]

/-- Collect the members an `ObjectBuilder` receives. -/
def buildMembers :
    List (String × Exec (Json D)) → Exec (List (String × Json D))
  | [] => .ok []
  | member :: members => do
      let value ← member.2
      let rest ← buildMembers members
      return (member.1, value) :: rest

mutual

/-- `node::into_builder`: the slice the builder holds afterwards. -/
def intoBuilder : Node D → Exec (Json D)
  | .string value => .ok (.string value)
  | .double value => .ok (.number value)
  | .bool value => .ok (.bool value)
  | .array value => do
      let elements ← elementsIntoBuilder value
      return .array elements
  | .object value => do
      let members ← buildMembers (ImmerMap.iterate (membersIntoBuilder value))
      return .object members
  | .null => .ok .null

/-- `node::into_builder` through a `node_ptr`. -/
def ptrIntoBuilder : Option (Node D) → Exec (Json D)
  | none => .error .nullptrDereference
  | some node => intoBuilder node

def elementsIntoBuilder : List (Option (Node D)) → Exec (List (Json D))
  | [] => .ok []
  | member :: value => do
      let element ← ptrIntoBuilder member
      let elements ← elementsIntoBuilder value
      return element :: elements

/-- The call of `into_builder` on every member, in no particular order. -/
def membersIntoBuilder :
    List (String × Option (Node D)) → List (String × Exec (Json D))
  | [] => []
  | member :: value => memberIntoBuilder member :: membersIntoBuilder value

def memberIntoBuilder : String × Option (Node D) → String × Exec (Json D)
  | (key, member) => (key, ptrIntoBuilder member)

end

variable [Double D]

/-- `operator<<`. -/
def print (n : Node D) : Exec String := do
  let builder ← n.intoBuilder
  builder.dump

/--
`std::equal` on the members of two objects in the order of iteration; the
comparison with `*left.second` is given for every member of the left one.
-/
def equalMembers :
    List (String × (NodePtr D → Exec Bool)) →
      List (String × NodePtr D) → Exec Bool
  | [], [] => .ok true
  | left :: lefts, right :: rights => do
      if left.1 = right.1 then
        if ← left.2 right.2 then
          equalMembers lefts rights
        else
          return false
      else
        return false
  | _, _ => .ok false

mutual

/-- `node::operator==`. -/
def eq : Node D → Node D → Exec Bool
  | .string value, .string other => .ok (value == other)
  | .double value, .double other => .ok (Double.eq value other)
  | .bool value, .bool other => .ok (value == other)
  | .array value, .array other =>
      if value.length = other.length then
        equalElements value other
      else
        .ok false
  | .object value, .object other =>
      equalMembers (ImmerMap.iterate (memberComparisons value))
        (ImmerMap.iterate other)
  | .null, .null => .ok true
  | _, _ => .ok false

/-- `*left == *right`. -/
def ptrEq : Option (Node D) → Option (Node D) → Exec Bool
  | some left, some right => eq left right
  | _, _ => .error .nullptrDereference

/-- `std::equal` on the elements of two arrays. -/
def equalElements :
    List (Option (Node D)) → List (Option (Node D)) → Exec Bool
  | left :: lefts, right :: rights => do
      if ← ptrEq left right then
        equalElements lefts rights
      else
        return false
  | _, _ => .ok true

/-- The comparison with every member, in no particular order. -/
def memberComparisons :
    List (String × Option (Node D)) →
      List (String × (NodePtr D → Exec Bool))
  | [] => []
  | member :: value => memberComparison member :: memberComparisons value

def memberComparison :
    String × Option (Node D) → String × (NodePtr D → Exec Bool)
  | (key, member) => (key, ptrEq member)

end

end Traversals

end Node

section Search

variable [StdHash] [Double D]

/-- `node_array::erase`: drop the first element that equals `*node`. -/
def NodeArray.erase (node : NodePtr D) : NodeArray D → Exec (NodeArray D)
  | [] => .ok []
  | current :: value => do
      if ← Node.ptrEq node current then
        return value
      else
        let rest ← NodeArray.erase node value
        return current :: rest

/-- The loop of `node_array::contains`. -/
def NodeArray.anyEqual (needle : NodePtr D) : NodeArray D → Exec Bool
  | [] => .ok false
  | node :: value => do
      if ← Node.ptrEq needle node then
        return true
      else
        NodeArray.anyEqual needle value

/-- `node_array::contains`. -/
def NodeArray.contains (value : NodeArray D) (needle : NodePtr D) : Exec Bool :=
  match needle with
  | none => .ok false
  | some needle => NodeArray.anyEqual (some needle) value

end Search

end AgencyNode
