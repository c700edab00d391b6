import AgencyNode.Deserialize.Plan
import AgencyNode.Serialization

/-!
# A recursive deserializer

The deserializer of nested objects whose leaves are strings: a map whose values
are, if they are objects, read by the deserializer itself behind an
`unpack_proxy`, and as strings otherwise.
-/

namespace AgencyNode
namespace Deserialize

open Lib

variable {D : Type}

/-- `deserialized_type`. -/
inductive DeserializedType where
  | mk (value : List (String × (DeserializedType ⊕ (String ⊕ Empty))))

/-- `std::variant<std::unique_ptr<deserialized_type>, std::string>`. -/
abbrev DeserializedVariant := DeserializedType ⊕ (String ⊕ Empty)

/-- `insert` of a `my_map`, which keeps the value that is there. -/
def insertMember
    {α : Type}
    (result : List (String × α))
    (member : String × α) : List (String × α) :=
  if (AssocMap.find result member.1).isSome then result else result ++ [member]

/-- The `my_map` into which the members have been inserted. -/
def insertMembers
    {α : Type}
    (members : List (String × α)) : List (String × α) :=
  members.foldl insertMember []

section Model

variable [Double D]

/-- `recursive_deserializer`. -/
def recursiveDeserializer :
    Plan D (fun _ : Unit => DeserializedType) DeserializedType :=
  .withFactory
    (.map
      (.conditional
        (.cons isObjectCondition (.unpackProxy ())
          (.conditionalDefault (.value readString)))))
    (fun members => pure (.mk (insertMembers members)))

/-- `deserialize<recursive_deserializer, H>` on a stack of the given size. -/
def deserializeRecursive (depth : Nat) : Deserializer D DeserializedType :=
  recursiveDeserializer.deserialize (fun _ => recursiveDeserializer) depth

end Model

/-! ## What is described -/

/-- A leaf of a slice: what is no object, at any depth. -/
inductive LeafOf (leaf : Json D) : Json D → Prop
  | here
      (hleaf : ∀ members, leaf ≠ .object members) : LeafOf leaf leaf
  | member
      {members : List (String × Json D)}
      {m : String × Json D}
      (hm : m ∈ members)
      (h : LeafOf leaf m.2) : LeafOf leaf (.object members)

/-- All leaves of the slice are strings. -/
def StringLeaves (s : Json D) : Prop :=
  ∀ leaf, LeafOf leaf s → ∃ text, leaf = .string text

/--
The tree has exactly the members of the slice; what is an object there is a tree
here, and what is a string there is the string.
-/
inductive DeserializedType.Describes : DeserializedType → Json D → Prop
  | object
      {value : List (String × DeserializedVariant)}
      {members : List (String × Json D)}
      (hkeys : ∀ key,
        AssocMap.find value key = none ↔ AssocMap.find members key = none)
      (hnested : ∀ key tree s,
        AssocMap.find value key = some (.inl tree) →
          AssocMap.find members key = some s → tree.Describes s)
      (hstring : ∀ key text s,
        AssocMap.find value key = some (.inr (.inl text)) →
          AssocMap.find members key = some s → s = .string text) :
      (DeserializedType.mk value).Describes (.object members)

theorem stringLeaves_object_iff
    {members : List (String × Json D)} :
    StringLeaves (.object members) ↔ ∀ m ∈ members, StringLeaves m.2 := by
  constructor
  · intro h m hm leaf hleaf
    exact h leaf (.member hm hleaf)
  · intro h leaf hleaf
    cases hleaf with
    | here hnot => exact absurd rfl (hnot members)
    | member hm hleaf => exact h _ hm leaf hleaf

theorem stringLeaves_leaf_iff
    {s : Json D}
    (hs : ∀ members, s ≠ .object members) :
    StringLeaves s ↔ ∃ text, s = .string text := by
  constructor
  · intro h
    exact h s (.here hs)
  · intro h leaf hleaf
    cases hleaf with
    | here _ => exact h
    | member _ _ => exact absurd rfl (hs _)

/-- An insertion does not change what is found under other keys, nor an old value. -/
theorem find_insertMember
    {α : Type}
    (result : List (String × α))
    (member : String × α)
    (key : String) :
    AssocMap.find (insertMember result member) key =
      (AssocMap.find result key).or (AssocMap.find [member] key) := by
  unfold insertMember
  split
  · rename_i hsome
    by_cases hkey : member.1 = key
    · rw [← hkey]
      obtain ⟨v, hv⟩ := Option.isSome_iff_exists.mp hsome
      rw [hv, Option.some_or]
    · simp [AssocMap.find, hkey]
  · exact AssocMap.find_append result [member] key

/-- The map finds what the list of the members finds. -/
theorem find_insertMembers
    {α : Type}
    (members : List (String × α))
    (key : String) :
    AssocMap.find (insertMembers members) key = AssocMap.find members key := by
  have hrun : ∀ result : List (String × α),
      AssocMap.find (members.foldl insertMember result) key =
        (AssocMap.find result key).or (AssocMap.find members key) := by
    induction members with
    | nil =>
        intro result
        simp
    | cons m members ih =>
        intro result
        rw [List.foldl_cons, ih, find_insertMember, Option.or_assoc]
        congr 1
        by_cases hkey : m.1 = key
        · simp [AssocMap.find, hkey]
        · simp [AssocMap.find, hkey]
  exact hrun []

section Recursion

variable [Double D]

/-! ## One level -/

/-- The deserializer of a member. -/
def memberDeserializer (depth : Nat) : Deserializer D DeserializedVariant :=
  conditionalDeserializer
    (.cons isObjectCondition
      (unpackProxy (deserializeProxy (fun _ => recursiveDeserializer) depth ()))
      (.conditionalDefault (valueDeserializer readString)))

theorem deserializeRecursive_eq
    (depth : Nat) :
    (deserializeRecursive depth : Deserializer D DeserializedType) =
      deserializeWith (mapDeserializer (memberDeserializer depth))
        (fun members => pure (.mk (insertMembers members))) := by
  rfl

/-- The hints a map hands down are ignored by a `conditional`. -/
theorem mapDeserializer_member
    (depth : Nat)
    (hints : HintList D)
    (members : List (String × Json D)) :
    mapDeserializer (memberDeserializer depth) hints (some (.object members)) =
      mapDeserializer (memberDeserializer depth) [] (some (.object members)) := by
  simp only [mapDeserializer, Slice.isObject, Bool.or_true]
  rfl

/-- The object goes to the deserializer itself, with the hint that it is one. -/
theorem memberDeserializer_object
    (depth : Nat)
    (members : List (String × Json D)) :
    memberDeserializer (depth + 1) [] (some (.object members)) =
      wrapError (fun e => e.wrap "when parsing conditionally")
        (deserializeRecursive depth [.isObject] (some (.object members)) >>=
          fun tree => pure (.inl tree)) := by
  rfl

theorem memberDeserializer_leaf
    (depth : Nat)
    {s : Json D}
    (hs : ∀ members, s ≠ .object members) :
    memberDeserializer depth [] (some s) =
      wrapError (fun e => e.wrap "when parsing conditionally")
        ((readString (some s) >>= fun text => pure (.inl text)) >>=
          fun v => pure (.inr v)) := by
  have htest : Slice.isObject (some s) = false := by
    cases s with
    | object members => exact absurd rfl (hs members)
    | _ => rfl
  unfold memberDeserializer conditionalDeserializer conditionalExecutor
  have hcondition : (isObjectCondition : Condition D).test (some s) = false := htest
  rw [hcondition]
  rfl

/-- The slice is decoded, or rejected because a leaf is no string. -/
structure Decodes (s : Json D) (r : Result DeserializedType) : Prop where
  returns : r.Returns
  accepts : (∃ tree, r.Accepts tree) ↔
    (∃ members, s = .object members) ∧ StringLeaves s
  describes : ∀ tree, r.Accepts tree → tree.Describes s

/-- The value of a member is decoded, with the alternative that it has. -/
structure DecodesMember (s : Json D) (r : Result DeserializedVariant) : Prop where
  returns : r.Returns
  accepts : (∃ v, r.Accepts v) ↔ StringLeaves s
  nested : ∀ tree, r.Accepts (.inl tree) → tree.Describes s
  string : ∀ text, r.Accepts (.inr (.inl text)) → s = .string text

theorem decodesMember_object
    {depth : Nat}
    {members : List (String × Json D)}
    (h : Decodes (.object members)
      (deserializeRecursive depth [.isObject] (some (.object members)))) :
    DecodesMember (.object members)
      (memberDeserializer (depth + 1) [] (some (.object members))) := by
  have haccepts : ∀ v,
      (memberDeserializer (depth + 1) [] (some (.object members))).Accepts v ↔
        ∃ tree, (deserializeRecursive depth [.isObject]
          (some (.object members))).Accepts tree ∧ .inl tree = v := by
    intro v
    simp only [memberDeserializer_object, accepts_wrapError, Outcome.accepts_bind,
      Outcome.accepts_pure]
  refine ⟨?_, ?_, ?_, ?_⟩
  · simp only [memberDeserializer_object, returns_wrapError, Outcome.returns_bind,
      Outcome.returns_pure, implies_true, and_true]
    exact h.returns
  · constructor
    · rintro ⟨v, hv⟩
      obtain ⟨tree, htree, _⟩ := (haccepts v).mp hv
      exact (h.accepts.mp ⟨tree, htree⟩).2
    · intro hleaves
      obtain ⟨tree, htree⟩ := h.accepts.mpr ⟨⟨members, rfl⟩, hleaves⟩
      exact ⟨.inl tree, (haccepts _).mpr ⟨tree, htree, rfl⟩⟩
  · intro tree htree
    obtain ⟨tree', htree', heq⟩ := (haccepts _).mp htree
    cases heq
    exact h.describes tree htree'
  · intro text htext
    obtain ⟨tree, _, heq⟩ := (haccepts _).mp htext
    cases heq

theorem decodesMember_leaf
    (depth : Nat)
    {s : Json D}
    (hs : ∀ members, s ≠ .object members) :
    DecodesMember s (memberDeserializer depth [] (some s)) := by
  have haccepts : ∀ v, (memberDeserializer depth [] (some s)).Accepts v ↔
      ∃ text, s = .string text ∧ .inr (.inl text) = v := by
    intro v
    simp only [memberDeserializer_leaf depth hs, accepts_wrapError,
      Outcome.accepts_bind, Outcome.accepts_pure, accepts_readString,
      Option.some.injEq]
    constructor
    · rintro ⟨_, ⟨text, htext, rfl⟩, rfl⟩
      exact ⟨text, htext, rfl⟩
    · rintro ⟨text, htext, rfl⟩
      exact ⟨_, ⟨text, htext, rfl⟩, rfl⟩
  refine ⟨?_, ?_, ?_, ?_⟩
  · simp [memberDeserializer_leaf depth hs]
  · rw [stringLeaves_leaf_iff hs]
    constructor
    · rintro ⟨v, hv⟩
      obtain ⟨text, htext, _⟩ := (haccepts v).mp hv
      exact ⟨text, htext⟩
    · rintro ⟨text, htext⟩
      exact ⟨_, (haccepts _).mpr ⟨text, htext, rfl⟩⟩
  · intro tree htree
    obtain ⟨text, _, heq⟩ := (haccepts _).mp htree
    cases heq
  · intro text htext
    obtain ⟨text', htext', heq⟩ := (haccepts _).mp htext
    cases heq
    exact htext'

omit [Double D] in
/-- A tree describes an object if its entries describe the members. -/
theorem describes_of_forall₂
    {members : List (String × Json D)}
    {entries : List (String × DeserializedVariant)}
    {r : Json D → Result DeserializedVariant}
    (hr : ∀ m ∈ members, DecodesMember m.2 (r m.2))
    (h : List.Forall₂ (fun m e => e.1 = m.1 ∧ (r m.2).Accepts e.2) members
      entries) :
    (DeserializedType.mk (insertMembers entries)).Describes (.object members) := by
  have hrel := AssocMap.rel_find_of_forall₂
    (R := fun j v => (r j).Accepts v) h
  have hmem : ∀ key s, AssocMap.find members key = some s →
      DecodesMember s (r s) :=
    fun key s hs => hr (key, s) (AssocMap.mem_of_find hs)
  refine .object ?_ ?_ ?_
  · intro key
    rw [find_insertMembers]
    have hkey := hrel key
    revert hkey
    cases AssocMap.find members key <;> cases AssocMap.find entries key <;>
      simp
  · intro key tree s hvalue hs
    rw [find_insertMembers] at hvalue
    have hkey := hrel key
    rw [hvalue, hs] at hkey
    cases hkey with
    | some haccepts => exact (hmem key s hs).nested tree haccepts
  · intro key text s hvalue hs
    rw [find_insertMembers] at hvalue
    have hkey := hrel key
    rw [hvalue, hs] at hkey
    cases hkey with
    | some haccepts => exact (hmem key s hs).string text haccepts

/-- A level is decoded if the levels below it are. -/
theorem decodes_object
    {depth : Nat}
    {members : List (String × Json D)}
    (hmembers : ∀ m ∈ members, ∀ ms, m.2 = .object ms →
      Decodes m.2 (deserializeRecursive depth [.isObject] (some m.2)))
    (hints : HintList D) :
    Decodes (.object members)
      (deserializeRecursive (depth + 1) hints (some (.object members))) := by
  have hmember : ∀ m ∈ members,
      DecodesMember m.2 (memberDeserializer (depth + 1) [] (some m.2)) := by
    intro m hm
    by_cases hobject : ∃ ms, m.2 = .object ms
    · obtain ⟨ms, hms⟩ := hobject
      have h := hmembers m hm ms hms
      rw [hms] at h ⊢
      exact decodesMember_object h
    · push Not at hobject
      exact decodesMember_leaf (depth + 1) hobject
  have haccepts : ∀ tree, (deserializeRecursive (depth + 1) hints
      (some (.object members))).Accepts tree ↔
        ∃ entries, List.Forall₂ (fun m e => e.1 = m.1 ∧
          (memberDeserializer (depth + 1) [] (some m.2)).Accepts e.2) members
            entries ∧ .mk (insertMembers entries) = tree := by
    intro tree
    have hmap : ∀ entries,
        (mapDeserializer (memberDeserializer (depth + 1)) []
            (some (.object members))).Accepts entries ↔
          List.Forall₂ (fun m e => e.1 = m.1 ∧
            (memberDeserializer (depth + 1) [] (some m.2)).Accepts e.2) members
              entries :=
      fun _ => accepts_mapDeserializer
        (R := fun j v => (memberDeserializer (depth + 1) [] (some j)).Accepts v)
        (fun _ _ _ => Iff.rfl)
    simp only [deserializeRecursive_eq, deserializeWith, mapDeserializer_member,
      Outcome.accepts_bind, Outcome.accepts_pure, hmap]
  refine ⟨?_, ?_, ?_⟩
  · simp only [deserializeRecursive_eq, deserializeWith, mapDeserializer_member,
      Outcome.returns_bind, Outcome.returns_pure, implies_true, and_true]
    have hsafe : ∀ m ∈ members,
        (memberDeserializer (depth + 1) [] (some m.2)).Returns ↔ True := by
      intro m hm
      exact ⟨fun _ => trivial, fun _ => (hmember m hm).returns⟩
    refine (@returns_mapDeserializer _ _ _ _ _ (fun _ => True)
      (fun m hm => (hmember m hm).accepts) hsafe).mpr ?_
    exact Outcome.scanSafe_of_forall fun _ _ => trivial
  · rw [stringLeaves_object_iff]
    constructor
    · rintro ⟨tree, htree⟩
      obtain ⟨entries, hentries, _⟩ := (haccepts tree).mp htree
      refine ⟨⟨members, rfl⟩, ?_⟩
      intro m hm
      obtain ⟨e, _, he⟩ := Outcome.exists_forall₂_iff.mp ⟨entries, hentries⟩ m hm
      exact (hmember m hm).accepts.mp ⟨e.2, he⟩
    · rintro ⟨_, hleaves⟩
      obtain ⟨entries, hentries⟩ :
          ∃ entries : List (String × DeserializedVariant),
            List.Forall₂ (fun m e => e.1 = m.1 ∧
              (memberDeserializer (depth + 1) [] (some m.2)).Accepts e.2) members
                entries := by
        refine Outcome.exists_forall₂_iff.mpr ?_
        intro m hm
        obtain ⟨v, hv⟩ := (hmember m hm).accepts.mpr (hleaves m hm)
        exact ⟨(m.1, v), rfl, hv⟩
      exact ⟨_, (haccepts _).mpr ⟨entries, hentries, rfl⟩⟩
  · intro tree htree
    obtain ⟨entries, hentries, rfl⟩ := (haccepts tree).mp htree
    exact describes_of_forall₂
      (r := fun j => memberDeserializer (depth + 1) [] (some j)) hmember hentries

/-! ## All levels -/

/-- What is no object is rejected. -/
theorem decodes_leaf
    (depth : Nat)
    {s : Json D}
    (hs : ∀ members, s ≠ .object members) :
    Decodes s (deserializeRecursive depth [] (some s)) := by
  have hobject : Slice.isObject (some s) = false := by
    cases s with
    | object members => exact absurd rfl (hs members)
    | _ => rfl
  have hreject : deserializeRecursive depth [] (some s) =
      (reject "expected object" >>= fun members =>
        pure (.mk (insertMembers members))) := by
    simp [deserializeRecursive_eq, deserializeWith, mapDeserializer,
      HintList.hintIsObject, hobject]
  rw [hreject]
  refine ⟨by simp, ?_, by simp⟩
  constructor
  · rintro ⟨tree, htree⟩
    simp at htree
  · rintro ⟨⟨members, hmembers⟩, _⟩
    exact absurd hmembers (hs members)

/-- A bound for every element of a list is a bound for all of them. -/
theorem exists_common_bound
    {ι : Type}
    {P : ι → Nat → Prop}
    {xs : List ι}
    (h : ∀ x ∈ xs, ∃ bound, ∀ depth, bound ≤ depth → P x depth) :
    ∃ bound, ∀ x ∈ xs, ∀ depth, bound ≤ depth → P x depth := by
  induction xs with
  | nil =>
      exact ⟨0, by simp⟩
  | cons x xs ih =>
      obtain ⟨⟨b, hb⟩, hxs⟩ := List.forall_mem_cons.mp h
      obtain ⟨c, hc⟩ := ih hxs
      refine ⟨max b c, List.forall_mem_cons.mpr ⟨?_, ?_⟩⟩
      · intro depth hdepth
        exact hb depth (le_trans (le_max_left b c) hdepth)
      · intro y hy depth hdepth
        exact hc y hy depth (le_trans (le_max_right b c) hdepth)

/-- An object is decoded, whatever the hints are, on a stack that is deep enough. -/
theorem exists_bound
    (s : Json D) :
    ∃ bound, ∀ depth, bound ≤ depth → ∀ members, s = .object members →
      ∀ hints, Decodes s (deserializeRecursive depth hints (some s)) := by
  induction s using Json.induction with
  | object members ih =>
      obtain ⟨bound, hbound⟩ := exists_common_bound ih
      refine ⟨bound + 1, ?_⟩
      intro depth hdepth _ _ hints
      cases depth with
      | zero => cases hdepth
      | succ depth =>
          refine decodes_object ?_ hints
          intro m hm ms hms
          exact hbound m hm depth (Nat.le_of_succ_le_succ hdepth) ms hms _
  | _ =>
      refine ⟨0, ?_⟩
      intro depth _ members hmembers
      cases hmembers

/--
**Nested objects are decoded exactly.**  On a stack that is deep enough for the
slice, the recursive deserializer accepts it if and only if it is an object all
of whose leaves are strings, and then constructs the tree that describes it.
-/
theorem recursive_decodes
    (s : Json D) :
    ∃ bound, ∀ depth, bound ≤ depth →
      Decodes s (deserializeRecursive depth [] (some s)) := by
  by_cases hobject : ∃ members, s = .object members
  · obtain ⟨members, hmembers⟩ := hobject
    obtain ⟨bound, hbound⟩ := exists_bound s
    exact ⟨bound, fun depth hdepth => hbound depth hdepth members hmembers []⟩
  · push Not at hobject
    exact ⟨0, fun depth _ => decodes_leaf depth hobject⟩

end Recursion

example :
    let s : Json Int :=
      .object [("a", .string "b"), ("c", .object [("d", .object [])])]
    let tree : DeserializedType :=
      .mk [("a", .inr (.inl "b")), ("c", .inl (.mk [("d", .inl (.mk []))]))]
    (deserializeRecursive 3 [] (some s)).Accepts tree := by
  rfl

end Deserialize
end AgencyNode
