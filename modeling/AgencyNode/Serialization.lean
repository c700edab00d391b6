import AgencyNode.Completeness
import AgencyNode.DistinctKeys
import AgencyNode.Tree

/-!
# Nodes and slices

`node::from_slice` and `node::into_builder` are inverse to each other, up to the
order in which objects list their members: a slice and the node read from it
denote the same tree, and so do a node and the slice written for it.
-/

namespace AgencyNode

open Lib

variable {D : Type}

/-! ## The tree of a slice -/

namespace Json

mutual

/-- The tree a slice denotes; numbers are doubles, objects are maps. -/
def denote : Json D → Tree D
  | .null => .null
  | .bool value => .bool value
  | .number value => .double value
  | .string value => .string value
  | .array elements => .array (denoteElements elements)
  | .object members => .object (AssocMap.find (denoteMembers members))

def denoteElements : List (Json D) → List (Option (Tree D))
  | [] => []
  | element :: elements => some (denote element) :: denoteElements elements

def denoteMembers : List (String × Json D) → List (String × Option (Tree D))
  | [] => []
  | member :: members => denoteMember member :: denoteMembers members

def denoteMember : String × Json D → String × Option (Tree D)
  | (key, value) => (key, some (denote value))

end

theorem denoteElements_eq
    (elements : List (Json D)) :
    denoteElements elements = elements.map fun s => some s.denote := by
  induction elements with
  | nil =>
      rfl
  | cons element elements ih =>
      rw [denoteElements, ih, List.map_cons]

theorem denoteMembers_eq
    (members : List (String × Json D)) :
    denoteMembers members =
      members.map fun member => (member.1, some member.2.denote) := by
  induction members with
  | nil =>
      rfl
  | cons member members ih =>
      obtain ⟨key, value⟩ := member
      rw [denoteMembers, ih, List.map_cons, denoteMember]

theorem find_denoteMembers
    (members : List (String × Json D))
    (k : String) :
    AssocMap.find (denoteMembers members) k =
      (AssocMap.find members k).map fun s => some s.denote := by
  rw [denoteMembers_eq]
  exact AssocMap.find_map (fun s : Json D => some s.denote) members k

/-- The slice itself, or a slice below it. -/
inductive Below (t : Json D) : Json D → Prop
  | refl : Below t t
  | element
      {elements : List (Json D)}
      {s : Json D}
      (hs : s ∈ elements)
      (ht : Below t s) : Below t (.array elements)
  | member
      {members : List (String × Json D)}
      {key : String}
      {s : Json D}
      (hs : (key, s) ∈ members)
      (ht : Below t s) : Below t (.object members)

/-- Every object in the slice has unique keys. -/
def UniqueKeys (s : Json D) : Prop :=
  ∀ members, Below (.object members) s → AssocMap.KeysNodup members

theorem UniqueKeys.element
    {elements : List (Json D)}
    (h : (Json.array elements).UniqueKeys)
    {s : Json D}
    (hs : s ∈ elements) :
    s.UniqueKeys :=
  fun members hmembers => h members (.element hs hmembers)

theorem UniqueKeys.member
    {members : List (String × Json D)}
    (h : (Json.object members).UniqueKeys)
    {key : String}
    {s : Json D}
    (hs : (key, s) ∈ members) :
    s.UniqueKeys :=
  fun ms hms => h ms (.member hs hms)

end Json

namespace Node

/-! ## `from_slice` -/

/-- With unique keys every member of the slice is a member of the node. -/
theorem find_ofMembers
    {members : List (String × Json D)}
    (hnodup : AssocMap.KeysNodup members)
    (container : NodeObject D)
    (k : String) :
    AssocMap.find (ofMembers members container) k =
      ((AssocMap.find members k).map fun s => some (ofJson s)).or
        (AssocMap.find container k) := by
  induction members generalizing container with
  | nil =>
      rfl
  | cons member members ih =>
      obtain ⟨key, s⟩ := member
      obtain ⟨hnot, hrest⟩ := AssocMap.keysNodup_cons.mp hnodup
      rw [ofMembers, ih hrest]
      by_cases hkey : key = k
      · subst hkey
        rw [AssocMap.find_eq_none_iff.mpr hnot, AssocMap.find_cons_self,
          AssocMap.find_set_self]
        rfl
      · rw [AssocMap.find_cons_ne _ _ hkey, AssocMap.find_set_ne _ _ hkey]

theorem ofElements_eq
    (elements : List (Json D)) :
    ofElements elements = elements.map fun s => some (ofJson s) := by
  induction elements with
  | nil =>
      rfl
  | cons element elements ih =>
      rw [ofElements, ih, List.map_cons]

/-- **A slice and the node read from it denote the same tree.** -/
theorem denote_ofJson
    {s : Json D}
    (h : s.UniqueKeys) :
    (ofJson s).denote = s.denote := by
  induction s using Json.induction with
  | array elements ih =>
      rw [ofJson, denote, Json.denote, denoteElements_eq, ofElements_eq,
        Json.denoteElements_eq, List.map_map]
      congr 1
      apply List.map_congr_left
      intro s hs
      exact congrArg some (ih s hs (h.element hs))
  | object members ih =>
      rw [ofJson, denote, Json.denote]
      congr 1
      funext k
      have hfind := find_ofMembers (h members .refl) [] k
      rw [AssocMap.find_nil, Option.or_none] at hfind
      rw [denoteMembers_eq, AssocMap.find_map, hfind, Json.find_denoteMembers]
      cases hk : AssocMap.find members k with
      | none =>
          rfl
      | some s =>
          have hmem := AssocMap.mem_of_find hk
          exact congrArg (fun t => some (some t)) (ih (k, s) hmem (h.member hmem))
  | _ =>
      rfl

/-! ## `into_builder` -/

/-- An `ObjectBuilder` receives the members one by one. -/
theorem buildMembers_eq_ok
    {members : List (String × Exec (Json D))}
    {result : List (String × Json D)} :
    buildMembers members = .ok result ↔
      members = result.map fun member => (member.1, .ok member.2) := by
  induction members generalizing result with
  | nil =>
      constructor
      · intro h
        cases h
        rfl
      · intro h
        rw [List.map_eq_nil_iff.mp h.symm]
        rfl
  | cons member members ih =>
      obtain ⟨key, value⟩ := member
      constructor
      · intro h
        obtain ⟨s, hs, h⟩ := Exec.bind_eq_ok.mp h
        obtain ⟨rest, hrest, h⟩ := Exec.bind_eq_ok.mp h
        cases h
        have hs : value = .ok s := hs
        rw [ih.mp hrest, hs, List.map_cons]
      · intro h
        cases result with
        | nil =>
            cases h
        | cons head rest =>
            simp only [List.map_cons, List.cons.injEq, Prod.mk.injEq] at h
            obtain ⟨⟨rfl, rfl⟩, hrest⟩ := h
            simp [buildMembers, ih.mpr hrest]

section Builder

variable [StdHash]

theorem membersIntoBuilder_eq
    (value : NodeObject D) :
    membersIntoBuilder value =
      value.map fun member => (member.1, ptrIntoBuilder member.2) := by
  induction value with
  | nil =>
      rfl
  | cons member value ih =>
      obtain ⟨key, v⟩ := member
      rw [membersIntoBuilder, ih, List.map_cons, memberIntoBuilder]

/-- The members of the object that is built, whatever the order of iteration. -/
theorem find_of_intoBuilder
    {value : NodeObject D}
    (hvalue : AssocMap.KeysNodup value)
    {members : List (String × Json D)}
    (h : buildMembers (ImmerMap.iterate (membersIntoBuilder value)) = .ok members) :
    AssocMap.KeysNodup members ∧
      ∀ k, (AssocMap.find members k).map Except.ok =
        (AssocMap.find value k).map ptrIntoBuilder := by
  have hlist := buildMembers_eq_ok.mp h
  have hperm := ImmerMap.iterate_perm (membersIntoBuilder value)
  rw [hlist, membersIntoBuilder_eq] at hperm
  have hkeys : ∀ (V W : Type) (f : V → W) (m : List (String × V)),
      (m.map fun e => (e.1, f e.2)).map Prod.fst = m.map Prod.fst := by
    intro V W f m
    rw [List.map_map]
    rfl
  have hbuilt : AssocMap.KeysNodup
      (value.map fun member => (member.1, ptrIntoBuilder member.2)) := by
    unfold AssocMap.KeysNodup
    rw [hkeys]
    exact hvalue
  have hmembers := hbuilt.of_perm hperm
  refine ⟨?_, ?_⟩
  · unfold AssocMap.KeysNodup at hmembers
    rwa [hkeys] at hmembers
  · intro k
    rw [← AssocMap.find_map, ← AssocMap.find_map]
    exact hmembers.find_eq_of_perm hbuilt hperm k

theorem elementsIntoBuilder_eq_ok
    {value : NodeArray D}
    {elements : List (Json D)} :
    elementsIntoBuilder value = .ok elements ↔
      value.map ptrIntoBuilder = elements.map Except.ok := by
  induction value generalizing elements with
  | nil =>
      constructor
      · intro h
        cases h
        rfl
      · intro h
        rw [List.map_eq_nil_iff.mp h.symm]
        rfl
  | cons v value ih =>
      constructor
      · intro h
        obtain ⟨s, hs, h⟩ := Exec.bind_eq_ok.mp h
        obtain ⟨rest, hrest, h⟩ := Exec.bind_eq_ok.mp h
        cases h
        rw [List.map_cons, List.map_cons, hs, ih.mp hrest]
      · intro h
        cases elements with
        | nil =>
            cases h
        | cons s rest =>
            simp only [List.map_cons, List.cons.injEq] at h
            simp [elementsIntoBuilder, h.1, ih.mpr h.2]

/-- If the elements are written as what they are, so is the array. -/
theorem denote_of_elementsIntoBuilder
    {value : NodeArray D}
    {elements : List (Json D)}
    (hbuilt : elementsIntoBuilder value = .ok elements)
    (hsame : ∀ (m : Node D) (t : Json D), some m ∈ value →
      m.intoBuilder = .ok t → t.denote = m.denote ∧ t.UniqueKeys) :
    (Json.array elements).denote = (Node.array value).denote ∧
      (Json.array elements).UniqueKeys := by
  have hmap := elementsIntoBuilder_eq_ok.mp hbuilt
  -- Every element has been written by one of the elements of the node.
  have hwritten : ∀ i : Nat, (elements[i]?).map Except.ok =
      (value[i]?).map ptrIntoBuilder := by
    intro i
    rw [← List.getElem?_map, ← List.getElem?_map, hmap]
  have helement : ∀ (i : Nat) (t : Json D), elements[i]? = some t →
      ∃ m, value[i]? = some (some m) ∧ t.denote = m.denote ∧ t.UniqueKeys := by
    intro i t ht
    have hi := hwritten i
    rw [ht] at hi
    obtain ⟨v, hv, hok⟩ := Option.map_eq_some_iff.mp hi.symm
    cases v with
    | none =>
        cases hok
    | some m =>
        exact ⟨m, hv, hsame m t (List.mem_of_getElem? hv) hok⟩
  refine ⟨?_, ?_⟩
  · rw [denote, Json.denote, Json.denoteElements_eq, denoteElements_eq]
    congr 1
    apply List.ext_getElem?
    intro i
    rw [List.getElem?_map, List.getElem?_map]
    cases ht : elements[i]? with
    | none =>
        have hi := hwritten i
        rw [ht] at hi
        rw [Option.map_eq_none_iff.mp hi.symm]
        rfl
    | some t =>
        obtain ⟨m, hm, hdenote, _⟩ := helement i t ht
        rw [hm]
        exact congrArg (fun d => some (some d)) hdenote
  · intro members hbelow
    rcases hbelow with _ | ⟨ht, hbelow⟩ | _
    obtain ⟨i, hi⟩ := List.mem_iff_getElem?.mp ht
    obtain ⟨_, _, _, hunique⟩ := helement i _ hi
    exact hunique members hbelow

/-- If the members are written as what they are, so is the object. -/
theorem denote_of_membersIntoBuilder
    {value : NodeObject D}
    {members : List (String × Json D)}
    (hkeys : AssocMap.KeysNodup value)
    (hbuilt : buildMembers (ImmerMap.iterate (membersIntoBuilder value)) = .ok members)
    (hsame : ∀ (k : String) (m : Node D) (t : Json D),
      AssocMap.find value k = some (some m) → m.intoBuilder = .ok t →
        t.denote = m.denote ∧ t.UniqueKeys) :
    (Json.object members).denote = (Node.object value).denote ∧
      (Json.object members).UniqueKeys := by
  obtain ⟨hnodup, hwritten⟩ := find_of_intoBuilder hkeys hbuilt
  have hmember : ∀ (k : String) (t : Json D),
      AssocMap.find members k = some t →
        ∃ m, AssocMap.find value k = some (some m) ∧ t.denote = m.denote ∧
          t.UniqueKeys := by
    intro k t ht
    have hk := hwritten k
    rw [ht] at hk
    obtain ⟨v, hv, hok⟩ := Option.map_eq_some_iff.mp hk.symm
    cases v with
    | none =>
        cases hok
    | some m =>
        exact ⟨m, hv, hsame k m t hv hok⟩
  refine ⟨?_, ?_⟩
  · rw [denote, Json.denote]
    congr 1
    funext k
    rw [Json.find_denoteMembers, denoteMembers_eq, AssocMap.find_map]
    cases ht : AssocMap.find members k with
    | none =>
        have hk := hwritten k
        rw [ht] at hk
        rw [Option.map_eq_none_iff.mp hk.symm]
        rfl
    | some t =>
        obtain ⟨m, hm, hdenote, _⟩ := hmember k t ht
        rw [hm]
        exact congrArg (fun d => some (some d)) hdenote
  · intro members' hbelow
    rcases hbelow with _ | _ | ⟨ht, hbelow⟩
    · exact hnodup
    · obtain ⟨_, _, _, hunique⟩ := hmember _ _ (hnodup.find_iff.mpr ht)
      exact hunique members' hbelow

/-- **A node and the slice written for it denote the same tree.** -/
theorem denote_intoBuilder
    {n : Node D}
    (hn : n.DistinctKeys)
    {s : Json D}
    (h : n.intoBuilder = .ok s) :
    s.denote = n.denote ∧ s.UniqueKeys := by
  induction n using Node.induction generalizing s with
  | array value ih =>
      obtain ⟨elements, helements, h⟩ := Exec.bind_eq_ok.mp h
      cases h
      apply denote_of_elementsIntoBuilder helements
      intro m t hmem hok
      exact ih m hmem (distinctKeys_array_iff.mp hn _ hmem) hok
  | object value ih =>
      obtain ⟨members, hmembers, h⟩ := Exec.bind_eq_ok.mp h
      cases h
      apply denote_of_membersIntoBuilder hn.keysNodup hmembers
      intro k m t hm hok
      exact ih k m (AssocMap.mem_of_find hm) (hn.find hm) hok
  | _ =>
      cases h
      refine ⟨rfl, ?_⟩
      intro members hbelow
      cases hbelow

/--
**Serialisation is lossless in both directions**: a node without `nullptr` is
read back from the slice it writes, and a slice with unique keys is written back
by the node it is read into.
-/
theorem serialization_roundtrip :
    (∀ n : Node D, n.Complete → n.DistinctKeys →
      ∃ s m, n.intoBuilder = .ok s ∧ fromSlice (some s) = .ok (some m) ∧
        m.Equal n) ∧
    ∀ s : Json D, s.UniqueKeys →
      ∃ n t, fromSlice (some s) = .ok (some n) ∧ n.intoBuilder = .ok t ∧
        t.denote = s.denote := by
  refine ⟨?_, ?_⟩
  · intro n hn hkeys
    obtain ⟨s, hs⟩ := hn.intoBuilder
    obtain ⟨hdenote, hunique⟩ := denote_intoBuilder hkeys hs
    exact ⟨s, ofJson s, hs, rfl, (denote_ofJson hunique).trans hdenote⟩
  · intro s hs
    obtain ⟨t, ht⟩ := (complete_ofJson s).intoBuilder
    obtain ⟨hdenote, _⟩ := denote_intoBuilder (distinctKeys_ofJson s) ht
    exact ⟨ofJson s, t, rfl, ht, hdenote.trans (denote_ofJson hs)⟩

end Builder

/-- An object with two members that share their hash, both ways. -/
theorem serialization_roundtrip_object :
    letI := constantHash
    let n : Node Int :=
      .object [("b", some (.array [some .null])), ("a", some (.double 1))]
    let s : Json Int := .object [("a", .number 1), ("b", .array [.string "x"])]
    (∃ s m, n.intoBuilder = .ok s ∧ fromSlice (some s) = .ok (some m) ∧ m.Equal n) ∧
    ∃ n t, fromSlice (some s) = .ok (some n) ∧ n.intoBuilder = .ok t ∧
      t.denote = s.denote := by
  let := constantHash
  intro n s
  obtain ⟨hnode, hslice⟩ := serialization_roundtrip (D := Int)
  refine ⟨hnode n ?_ ?_, hslice s ?_⟩
  · exact ⟨⟨trivial, trivial⟩, trivial, trivial⟩
  · exact ⟨by simp [AssocMap.KeysNodup], ⟨trivial, trivial⟩, trivial, trivial⟩
  · change Json.UniqueKeys (.object [("a", .number 1), ("b", .array [.string "x"])])
    intro members hbelow
    obtain _ | _ | ⟨hmem, hbelow⟩ := hbelow
    · simp [AssocMap.KeysNodup]
    · rcases List.mem_cons.mp hmem with heq | hmem
      · cases heq
        cases hbelow
      · cases List.mem_singleton.mp hmem
        obtain _ | ⟨hs, hbelow⟩ | _ := hbelow
        cases List.mem_singleton.mp hs
        cases hbelow

end Node

end AgencyNode
