import AgencyNode.JsonRoundtrip

/-!
# Nodes and their texts

`operator<<` writes a node as JSON text, and `node_from_file` reads a node from
such a text.  The dumper iterates over an object in the order of its index table,
which the builder has sorted by name, so the members come back in another order.
The tree that the node denotes is the same.
-/

namespace AgencyNode

open Lib
open FlatStore (bytes)

variable {D : Type}

namespace Json

/-- `Builder::sortObjectIndex`: `memcmp`, and the shorter name first. -/
def sortObjectIndex (members : List (String × Json D)) : List (String × Json D) :=
  members.mergeSort fun a b => decide (bytes a.1 ≤ bytes b.1)

mutual

/-- The value with all members in the order of the index tables. -/
def indexOrder : Json D → Json D
  | .null => .null
  | .bool value => .bool value
  | .number value => .number value
  | .string value => .string value
  | .array elements => .array (indexOrderElements elements)
  | .object members => .object (sortObjectIndex (indexOrderMembers members))

def indexOrderElements : List (Json D) → List (Json D)
  | [] => []
  | element :: elements => indexOrder element :: indexOrderElements elements

def indexOrderMembers : List (String × Json D) → List (String × Json D)
  | [] => []
  | member :: members => indexOrderMember member :: indexOrderMembers members

def indexOrderMember : String × Json D → String × Json D
  | (key, value) => (key, indexOrder value)

end

theorem indexOrderElements_eq
    (elements : List (Json D)) :
    indexOrderElements elements = elements.map indexOrder := by
  induction elements with
  | nil => rfl
  | cons element elements ih => rw [indexOrderElements, ih, List.map_cons]

theorem indexOrderMembers_eq
    (members : List (String × Json D)) :
    indexOrderMembers members =
      members.map fun member => (member.1, member.2.indexOrder) := by
  induction members with
  | nil => rfl
  | cons member members ih =>
      obtain ⟨key, value⟩ := member
      rw [indexOrderMembers, ih, List.map_cons, indexOrderMember]

theorem sortObjectIndex_perm
    (members : List (String × Json D)) :
    (sortObjectIndex members).Perm members :=
  List.mergeSort_perm _ _

theorem keysNodup_indexOrderMembers
    {members : List (String × Json D)}
    (h : AssocMap.KeysNodup members) :
    AssocMap.KeysNodup (indexOrderMembers members) := by
  rw [indexOrderMembers_eq, AssocMap.KeysNodup, List.map_map]
  exact h

/-- Sorting the members of a value changes neither its tree nor its keys. -/
theorem denote_indexOrder
    {s : Json D}
    (hs : s.UniqueKeys) :
    s.indexOrder.denote = s.denote ∧ s.indexOrder.UniqueKeys := by
  induction s using Json.induction with
  | null => exact ⟨rfl, hs⟩
  | bool value => exact ⟨rfl, hs⟩
  | number value => exact ⟨rfl, hs⟩
  | string value => exact ⟨rfl, hs⟩
  | array elements ih =>
      rw [indexOrder, indexOrderElements_eq]
      refine ⟨?_, ?_⟩
      · rw [denote, denote, denoteElements_eq, denoteElements_eq, List.map_map]
        congr 1
        apply List.map_congr_left
        intro s hmem
        exact congrArg some (ih s hmem (hs.element hmem)).1
      · intro members hbelow
        obtain _ | ⟨hmem, hbelow⟩ | _ := hbelow
        obtain ⟨s, hs', rfl⟩ := List.mem_map.mp hmem
        exact (ih s hs' (hs.element hs')).2 members hbelow
  | object members ih =>
      have hnodup := hs members .refl
      have hsorted := (keysNodup_indexOrderMembers hnodup).of_perm (sortObjectIndex_perm _)
      rw [indexOrder]
      refine ⟨?_, ?_⟩
      · rw [denote, denote]
        congr 1
        funext k
        rw [find_denoteMembers, find_denoteMembers,
          hsorted.find_eq_of_perm (keysNodup_indexOrderMembers hnodup)
            (sortObjectIndex_perm _), indexOrderMembers_eq, AssocMap.find_map]
        cases ht : AssocMap.find members k with
        | none => rfl
        | some t =>
            have hmem := AssocMap.mem_of_find ht
            exact congrArg (fun d => some (some d)) (ih (k, t) hmem (hs.member hmem)).1
      · intro members' hbelow
        obtain _ | _ | ⟨hmem, hbelow⟩ := hbelow
        · exact hsorted
        · rw [(sortObjectIndex_perm _).mem_iff, indexOrderMembers_eq] at hmem
          obtain ⟨⟨key, t⟩, ht, heq⟩ := List.mem_map.mp hmem
          cases heq
          exact (ih (key, t) ht (hs.member ht)).2 members' hbelow

end Json

/-- The tree has the number at a leaf. -/
inductive Tree.HasNumber (value : D) : Tree D → Prop
  | double : HasNumber value (.double value)
  | element
      {elements : List (Option (Tree D))}
      {t : Tree D}
      (ht : some t ∈ elements)
      (h : HasNumber value t) :
      HasNumber value (.array elements)
  | member
      {members : String → Option (Option (Tree D))}
      {key : String}
      {t : Tree D}
      (ht : members key = some (some t))
      (h : HasNumber value t) :
      HasNumber value (.object members)

theorem Json.UniqueKeys.hasNumber
    {s : Json D}
    (hs : s.UniqueKeys)
    {value : D}
    (h : Below (.number value) s) :
    s.denote.HasNumber value := by
  induction h with
  | refl => exact .double
  | @element elements s hmem _ ih =>
      rw [denote, denoteElements_eq]
      exact .element (List.mem_map_of_mem hmem) (ih (hs.element hmem))
  | @member members key s hmem _ ih =>
      have hfind : AssocMap.find (denoteMembers members) key = some (some s.denote) := by
        rw [find_denoteMembers, (hs members .refl).find_iff.mpr hmem]
        rfl
      rw [denote]
      exact .member hfind (ih (hs.member hmem))

/-- `Slice::toJson`. -/
def Dumper.toJson [Double D] (s : Json D) : Option Text :=
  dumpValue s.indexOrder

namespace Node

variable [StdHash]

/-- `operator<<`, as bytes. -/
def printText [Double D] (n : Node D) : Exec (Option Text) := do
  let builder ← n.intoBuilder
  return Dumper.toJson builder

/--
`node_from_file`, on the contents of the file.  The strings of a `Node` are UTF-8, so
there is none for a document with other strings.
-/
def nodeFromFile [ParserDouble D] (str : Text) :
    Parser.Result (Option (Exec (NodePtr D))) := do
  let data ← Parser.parse str
  return data.toJson?.map fun s => fromSlice (some s)

variable [ParserDouble D]

/-- Every number in the node is read back from the text the dumper writes for it. -/
def ReadableNumbers (n : Node D) : Prop :=
  ∀ value, n.denote.HasNumber value → Parser.Readable value

omit [StdHash] in
theorem nodeFromFile_of_parse
    {t : Text}
    {s : Json D}
    (h : Parser.parse t = .ok (.ofJson s)) :
    nodeFromFile t = .ok (some (.ok (some (ofJson s)))) := by
  rw [nodeFromFile, h, Parser.Result.ok_bind, Document.toJson?_ofJson]
  rfl

end Node

end AgencyNode
