import AgencyNode.Completeness
import AgencyNode.DistinctKeys
import AgencyNode.IterationOrder
import AgencyNode.NodeConditions
import Mathlib.Data.Fintype.Pigeonhole

/-!
# Equality of nodes

`operator==` of two objects compares the members in the order in which the two
maps are iterated.  Trees that hold the same values are found equal if and only
if corresponding objects list the keys that share a hash in the same order.
-/

namespace AgencyNode

open Lib

variable {D : Type}

namespace Node

/-! ## The same value -/

/--
The two trees denote the same value: scalars are equal, arrays element by
element, objects have the same keys and equal members.
-/
inductive SameValue [Double D] : Node D → Node D → Prop
  | string
      (value : String) : SameValue (.string value) (.string value)
  | double
      {value other : D}
      (h : Double.eq value other = true) :
      SameValue (.double value) (.double other)
  | bool
      (value : Bool) : SameValue (.bool value) (.bool value)
  | array
      {value other : NodeArray D}
      (hlength : value.length = other.length)
      (helements : ∀ (i : Nat) (n m : Node D),
        value[i]? = some (some n) → other[i]? = some (some m) →
          SameValue n m) :
      SameValue (.array value) (.array other)
  | object
      {value other : NodeObject D}
      (hkeys : ∀ key, key ∈ value.map Prod.fst ↔ key ∈ other.map Prod.fst)
      (hmembers : ∀ (key : String) (n m : Node D),
        AssocMap.find value key = some (some n) →
          AssocMap.find other key = some (some m) → SameValue n m) :
      SameValue (.object value) (.object other)
  | null : SameValue .null .null

/-! ## The same order -/

/-- The trees at the same place in two trees. -/
inductive Corresponding (n m : Node D) : Node D → Node D → Prop
  | refl : Corresponding n m n m
  | element
      {value other : NodeArray D}
      {i : Nat}
      {a b : Node D}
      (ha : value[i]? = some (some a))
      (hb : other[i]? = some (some b))
      (h : Corresponding n m a b) :
      Corresponding n m (.array value) (.array other)
  | member
      {value other : NodeObject D}
      {key : String}
      {a b : Node D}
      (ha : AssocMap.find value key = some (some a))
      (hb : AssocMap.find other key = some (some b))
      (h : Corresponding n m a b) :
      Corresponding n m (.object value) (.object other)

section Order

variable [StdHash]

/-- Corresponding objects list the keys with the same hash in the same order. -/
def SameOrder (a b : Node D) : Prop :=
  ∀ value other, Corresponding (.object value) (.object other) a b →
    ∀ h, ImmerMap.bucketKeys h value = ImmerMap.bucketKeys h other

theorem sameOrder_array_iff
    {value other : NodeArray D} :
    (Node.array value).SameOrder (.array other) ↔
      ∀ (i : Nat) (n m : Node D),
        value[i]? = some (some n) → other[i]? = some (some m) →
          n.SameOrder m := by
  constructor
  · intro h i n m hn hm v o hvo
    exact h v o (.element hn hm hvo)
  · intro h v o hvo
    rcases hvo with _ | ⟨ha, hb, hvo⟩ | _
    exact h _ _ _ ha hb v o hvo

theorem sameOrder_object_iff
    {value other : NodeObject D} :
    (Node.object value).SameOrder (.object other) ↔
      (∀ h, ImmerMap.bucketKeys h value = ImmerMap.bucketKeys h other) ∧
        ∀ (key : String) (n m : Node D),
          AssocMap.find value key = some (some n) →
            AssocMap.find other key = some (some m) → n.SameOrder m := by
  constructor
  · intro h
    refine ⟨h value other .refl, ?_⟩
    intro key n m hn hm v o hvo
    exact h v o (.member hn hm hvo)
  · rintro ⟨hbuckets, hmembers⟩ v o hvo
    rcases hvo with _ | _ | ⟨ha, hb, hvo⟩
    · exact hbuckets
    · exact hmembers _ _ _ ha hb v o hvo

/-- Scalars have no keys to list. -/
theorem sameOrder_of_shape
    {a b : Node D}
    (ha : ∀ value, a ≠ .array value)
    (hb : ∀ value, a ≠ .object value) :
    a.SameOrder b := by
  intro value other h
  cases h with
  | refl =>
      exact absurd rfl (hb value)
  | element _ _ _ =>
      exact absurd rfl (ha _)
  | member _ _ _ =>
      exact absurd rfl (hb _)

end Order

/-! ## What `operator==` computes -/

theorem equalMembers_eq_true_iff
    {lefts : List (String × (NodePtr D → Exec Bool))}
    {rights : List (String × NodePtr D)} :
    equalMembers lefts rights = .ok true ↔
      List.Forall₂ (fun left right =>
        left.1 = right.1 ∧ left.2 right.2 = .ok true) lefts rights := by
  induction lefts generalizing rights with
  | nil =>
      cases rights with
      | nil => simp [equalMembers]
      | cons right rights => simp [equalMembers]
  | cons left lefts ih =>
      cases rights with
      | nil =>
          simp [equalMembers]
      | cons right rights =>
          rw [equalMembers, List.forall₂_cons, ← ih]
          by_cases hkey : left.1 = right.1
          · rw [if_pos hkey, Exec.bind_eq_ok]
            constructor
            · rintro ⟨r, hr, h⟩
              cases r with
              | false => cases h
              | true => exact ⟨⟨hkey, hr⟩, h⟩
            · rintro ⟨⟨_, hr⟩, h⟩
              exact ⟨true, hr, h⟩
          · rw [if_neg hkey]
            constructor
            · intro h
              cases h
            · rintro ⟨⟨h, _⟩, _⟩
              exact absurd h hkey

section Equality

variable [StdHash] [Double D]

theorem equalElements_eq_true_iff
    {value other : NodeArray D}
    (hlength : value.length = other.length) :
    equalElements value other = .ok true ↔
      ∀ (i : Nat) (c d : NodePtr D),
        value[i]? = some c → other[i]? = some d → ptrEq c d = .ok true := by
  induction value generalizing other with
  | nil =>
      simp [equalElements]
  | cons c value ih =>
      cases other with
      | nil =>
          simp at hlength
      | cons d other =>
          have hrest := ih (Nat.succ.inj hlength)
          rw [equalElements, Exec.bind_eq_ok]
          constructor
          · rintro ⟨r, hr, h⟩ i c' d' hc hd
            cases r with
            | false =>
                cases h
            | true =>
                cases i with
                | zero =>
                    cases hc
                    cases hd
                    exact hr
                | succ i =>
                    exact hrest.mp h i c' d' hc hd
          · intro h
            refine ⟨true, h 0 c d rfl rfl, ?_⟩
            exact hrest.mpr (fun i c' d' hc hd => h (i + 1) c' d' hc hd)

theorem memberComparisons_eq
    (value : NodeObject D) :
    memberComparisons value =
      value.map fun member => (member.1, ptrEq member.2) := by
  induction value with
  | nil =>
      rfl
  | cons member value ih =>
      obtain ⟨key, v⟩ := member
      rw [memberComparisons, ih, List.map_cons, memberComparison]

/-- Objects are compared key by key, if they are iterated in the same order. -/
theorem eq_object_eq_true_iff
    {value other : NodeObject D}
    (hvalue : AssocMap.KeysNodup value)
    (hother : AssocMap.KeysNodup other) :
    (Node.object value).eq (.object other) = .ok true ↔
      (∀ h, ImmerMap.bucketKeys h value = ImmerMap.bucketKeys h other) ∧
        ∀ (key : String) (c d : NodePtr D),
          AssocMap.find value key = some c →
            AssocMap.find other key = some d → ptrEq c d = .ok true := by
  have hleft := ImmerMap.iterate_perm value
  have hright := ImmerMap.iterate_perm other
  have hleftKeys := hvalue.of_perm hleft
  have hrightKeys := hother.of_perm hright
  have hfindLeft : ∀ key, AssocMap.find (ImmerMap.iterate value) key =
      AssocMap.find value key :=
    hleftKeys.find_eq_of_perm hvalue hleft
  have hfindRight : ∀ key, AssocMap.find (ImmerMap.iterate other) key =
      AssocMap.find other key :=
    hrightKeys.find_eq_of_perm hother hright
  rw [Node.eq, memberComparisons_eq, ImmerMap.iterate_map,
    equalMembers_eq_true_iff, List.forall₂_map_left_iff]
  refine (hleftKeys.forall₂_iff (R := fun c d => ptrEq c d = .ok true)).trans ?_
  rw [ImmerMap.keys_iterate_eq_iff]
  simp only [hfindLeft, hfindRight]

/-- Arrays are equal if their elements are. -/
theorem eq_array_iff_of_elements
    {value other : NodeArray D}
    (hvalue : (Node.array value).Complete)
    (hother : (Node.array other).Complete)
    (helement : ∀ (i : Nat) (n m : Node D),
      value[i]? = some (some n) → other[i]? = some (some m) →
        (ptrEq (some n) (some m) = .ok true ↔ n.SameValue m ∧ n.SameOrder m)) :
    (Node.array value).eq (.array other) = .ok true ↔
      (Node.array value).SameValue (.array other) ∧
        (Node.array value).SameOrder (.array other) := by
  rw [Node.eq, sameOrder_array_iff]
  by_cases hlength : value.length = other.length
  · rw [if_pos hlength, equalElements_eq_true_iff hlength]
    constructor
    · intro h
      have hboth := fun i n m hn hm => (helement i n m hn hm).mp (h i _ _ hn hm)
      refine ⟨.array hlength ?_, ?_⟩
      · exact fun i n m hn hm => (hboth i n m hn hm).1
      · exact fun i n m hn hm => (hboth i n m hn hm).2
    · intro h i c d hc hd
      obtain ⟨n, rfl, _⟩ :=
        (complete_array_iff.mp hvalue c (List.mem_of_getElem? hc)).exists_node
      obtain ⟨m, rfl, _⟩ :=
        (complete_array_iff.mp hother d (List.mem_of_getElem? hd)).exists_node
      obtain ⟨hsame, horder⟩ := h
      cases hsame with
      | array _ helements =>
          exact (helement i n m hc hd).mpr
            ⟨helements i n m hc hd, horder i n m hc hd⟩
  · rw [if_neg hlength]
    constructor
    · intro h
      cases h
    · intro h
      cases h.1 with
      | array hsame _ =>
          exact absurd hsame hlength

/-- Objects are equal if they list the same keys and their members are equal. -/
theorem eq_object_iff_of_members
    {value other : NodeObject D}
    (hvalue : (Node.object value).Complete)
    (hkeys : AssocMap.KeysNodup value)
    (hother : (Node.object other).Complete)
    (hotherKeys : AssocMap.KeysNodup other)
    (hmember : ∀ (key : String) (n m : Node D),
      AssocMap.find value key = some (some n) →
        AssocMap.find other key = some (some m) →
          (ptrEq (some n) (some m) = .ok true ↔ n.SameValue m ∧ n.SameOrder m)) :
    (Node.object value).eq (.object other) = .ok true ↔
      (Node.object value).SameValue (.object other) ∧
        (Node.object value).SameOrder (.object other) := by
  rw [eq_object_eq_true_iff hkeys hotherKeys, sameOrder_object_iff]
  constructor
  · intro h
    obtain ⟨hbuckets, h⟩ := h
    have hboth := fun key n m hn hm =>
      (hmember key n m hn hm).mp (h key _ _ hn hm)
    have hperm := ImmerMap.keys_perm_of_bucketKeys hbuckets
    refine ⟨.object ?_ ?_, hbuckets, ?_⟩
    · exact fun key => hperm.mem_iff
    · exact fun key n m hn hm => (hboth key n m hn hm).1
    · exact fun key n m hn hm => (hboth key n m hn hm).2
  · intro h
    obtain ⟨hsame, hbuckets, horder⟩ := h
    refine ⟨hbuckets, ?_⟩
    intro key c d hc hd
    obtain ⟨n, rfl, _⟩ :=
      (complete_object_iff.mp hvalue _ (AssocMap.mem_of_find hc)).exists_node
    obtain ⟨m, rfl, _⟩ :=
      (complete_object_iff.mp hother _ (AssocMap.mem_of_find hd)).exists_node
    cases hsame with
    | object _ hmembers =>
        exact (hmember key n m hc hd).mpr
          ⟨hmembers key n m hc hd, horder key n m hc hd⟩

/-- Scalars are equal if they are of one type and have the same value. -/
theorem eq_scalar_iff
    {a b : Node D}
    (harray : ∀ value, a ≠ .array value)
    (hobject : ∀ value, a ≠ .object value) :
    a.eq b = .ok true ↔ a.SameValue b ∧ a.SameOrder b := by
  have horder : a.SameOrder b := sameOrder_of_shape harray hobject
  have hvalue : a.eq b = .ok true ↔ a.SameValue b := by
    constructor
    · intro h
      cases a with
      | array value => exact absurd rfl (harray value)
      | object value => exact absurd rfl (hobject value)
      | string value =>
          cases b with
          | string other =>
              simp only [Node.eq, Except.ok.injEq, beq_iff_eq] at h
              rw [h]
              exact .string other
          | _ => cases h
      | double value =>
          cases b with
          | double other =>
              simp only [Node.eq, Except.ok.injEq] at h
              exact .double h
          | _ => cases h
      | bool value =>
          cases b with
          | bool other =>
              simp only [Node.eq, Except.ok.injEq, beq_iff_eq] at h
              rw [h]
              exact .bool other
          | _ => cases h
      | null =>
          cases b with
          | null => exact .null
          | _ => cases h
    · intro h
      cases h with
      | array _ _ => exact absurd rfl (harray _)
      | object _ _ => exact absurd rfl (hobject _)
      | string value => simp [Node.eq]
      | double h => simp [Node.eq, h]
      | bool value => simp [Node.eq]
      | null => rfl
  rw [hvalue, and_iff_left horder]

/-- **`operator==`** finds two trees equal if they have the same value and order. -/
theorem eq_eq_true_iff
    {a b : Node D}
    (ha : a.Complete)
    (hakeys : a.DistinctKeys)
    (hb : b.Complete)
    (hbkeys : b.DistinctKeys) :
    a.eq b = .ok true ↔ a.SameValue b ∧ a.SameOrder b := by
  induction a using Node.induction generalizing b with
  | array value ih =>
      cases b with
      | array other =>
          apply eq_array_iff_of_elements ha hb
          intro i n m hn hm
          have hnmem := List.mem_of_getElem? hn
          have hmmem := List.mem_of_getElem? hm
          exact ih n hnmem (complete_array_iff.mp ha _ hnmem)
            (distinctKeys_array_iff.mp hakeys _ hnmem)
            (complete_array_iff.mp hb _ hmmem)
            (distinctKeys_array_iff.mp hbkeys _ hmmem)
      | _ =>
          constructor
          · intro h
            cases h
          · intro h
            cases h.1
  | object value ih =>
      cases b with
      | object other =>
          apply eq_object_iff_of_members ha hakeys.keysNodup hb hbkeys.keysNodup
          intro key n m hn hm
          have hnmem := AssocMap.mem_of_find hn
          have hmmem := AssocMap.mem_of_find hm
          exact ih key n hnmem (complete_object_iff.mp ha _ hnmem)
            (hakeys.find hn) (complete_object_iff.mp hb _ hmmem)
            (hbkeys.find hm)
      | _ =>
          constructor
          · intro h
            cases h
          · intro h
            cases h.1
  | string value => exact eq_scalar_iff (by simp) (by simp)
  | double value => exact eq_scalar_iff (by simp) (by simp)
  | bool value => exact eq_scalar_iff (by simp) (by simp)
  | null => exact eq_scalar_iff (by simp) (by simp)

end Equality

/-! ## Searching an array -/

section Search

variable {α : Type}

/-- The list without the first element that has the property. -/
inductive ErasesFirst (P : α → Prop) : List α → List α → Prop
  | nil : ErasesFirst P [] []
  | found
      {c : α}
      (value : List α)
      (hc : P c) : ErasesFirst P (c :: value) value
  | kept
      {c : α}
      {value result : List α}
      (hc : ¬ P c)
      (h : ErasesFirst P value result) :
      ErasesFirst P (c :: value) (c :: result)

/-- The first element with property `P` has property `Q`. -/
def FirstHas (P Q : α → Prop) (value : List α) : Prop :=
  ∀ l c l', value = l ++ c :: l' → (∀ d ∈ l, ¬ P d) → P c → Q c

theorem firstHas_cons_iff
    {P Q : α → Prop}
    {c : α}
    {value : List α} :
    FirstHas P Q (c :: value) ↔ (P c → Q c) ∧ (¬ P c → FirstHas P Q value) := by
  constructor
  · intro h
    refine ⟨h [] c value rfl (by simp), ?_⟩
    intro hc l d l' hl hnot
    refine h (c :: l) d l' (by rw [hl, List.cons_append]) ?_
    exact List.forall_mem_cons.mpr ⟨hc, hnot⟩
  · intro h l d l' hl hnot hd
    cases l with
    | nil =>
        cases hl
        exact h.1 hd
    | cons x l =>
        cases hl
        obtain ⟨hx, hnot⟩ := List.forall_mem_cons.mp hnot
        exact h.2 hx l d l' rfl hnot hd

/-- Elements without the property stay in front. -/
theorem ErasesFirst.append
    {P : α → Prop}
    {front value result : List α}
    (hfront : ∀ c ∈ front, ¬ P c)
    (h : ErasesFirst P value result) :
    ErasesFirst P (front ++ value) (front ++ result) := by
  induction front with
  | nil => exact h
  | cons c front ih =>
      obtain ⟨hc, hfront⟩ := List.forall_mem_cons.mp hfront
      exact .kept hc (ih hfront)

/-- An element that does not have the property is not what is erased. -/
theorem not_erasesFirst_tail
    {Q : α → Prop}
    {c : α}
    (hc : ¬ Q c)
    (value : List α) :
    ¬ ErasesFirst Q (c :: value) value := by
  induction value with
  | nil =>
      intro h
      cases h with
      | found _ hq => exact hc hq
  | cons d value ih =>
      intro h
      cases h with
      | found _ hq => exact hc hq
      | kept _ h => exact ih h

/-- Erasing by the stronger property erases by the weaker one. -/
theorem erasesFirst_iff_firstHas
    {P Q : α → Prop}
    (hQP : ∀ c, Q c → P c)
    {value result : List α}
    (h : ErasesFirst Q value result) :
    ErasesFirst P value result ↔ FirstHas P Q value := by
  induction h with
  | nil =>
      constructor
      · intro _ l c l' hl
        cases l <;> cases hl
      · intro _
        exact .nil
  | found value hc =>
      rw [firstHas_cons_iff]
      constructor
      · intro _
        exact ⟨fun _ => hc, fun hnot => absurd (hQP _ hc) hnot⟩
      · intro _
        exact .found value (hQP _ hc)
  | kept hc hrest ih =>
      rw [firstHas_cons_iff, ← ih]
      constructor
      · intro hP
        cases hP with
        | found _ hp =>
            exact absurd hrest (not_erasesFirst_tail hc _)
        | kept hp hP =>
            exact ⟨fun hp' => absurd hp' hp, fun _ => hP⟩
      · intro hP
        have hp := fun hp => hc (hP.1 hp)
        exact .kept hp (hP.2 hp)

theorem exists_erasesFirst
    (P : α → Prop)
    (value : List α) :
    ∃ result, ErasesFirst P value result := by
  induction value with
  | nil =>
      exact ⟨[], .nil⟩
  | cons c value ih =>
      by_cases hc : P c
      · exact ⟨value, .found value hc⟩
      · obtain ⟨result, hresult⟩ := ih
        exact ⟨c :: result, .kept hc hresult⟩

/-- The list without the first element that has the property is one list. -/
theorem ErasesFirst.unique
    {P : α → Prop}
    {value result result' : List α}
    (h : ErasesFirst P value result)
    (h' : ErasesFirst P value result') :
    result = result' := by
  induction h generalizing result' with
  | nil =>
      cases h'
      rfl
  | found value hc =>
      cases h' with
      | found => rfl
      | kept hnot _ => exact absurd hc hnot
  | kept hnot _ ih =>
      cases h' with
      | found _ hc => exact absurd hc hnot
      | kept _ h' => rw [ih h']

/-- If some element has the property, one of them is the first. -/
theorem exists_of_firstHas
    {P Q : α → Prop}
    {value : List α}
    (h : FirstHas P Q value) :
    (∃ c ∈ value, P c) → ∃ c ∈ value, Q c := by
  induction value with
  | nil =>
      simp
  | cons c value ih =>
      intro hP
      obtain ⟨hhead, htail⟩ := firstHas_cons_iff.mp h
      by_cases hc : P c
      · exact ⟨c, List.mem_cons_self, hhead hc⟩
      · obtain ⟨d, hd, hPd⟩ := hP
        have hdvalue : d ∈ value := by
          rcases List.mem_cons.mp hd with rfl | hd
          · exact absurd hPd hc
          · exact hd
        obtain ⟨x, hx, hQ⟩ := ih (htail hc) ⟨d, hdvalue, hPd⟩
        exact ⟨x, List.mem_cons_of_mem _ hx, hQ⟩

end Search

/-! ## What depends on the values only -/

/-- The computation returns, and it returns whether `p` holds. -/
def Decides (x : Exec Bool) (p : Prop) : Prop :=
  (x = .ok true ↔ p) ∧ (x = .ok false ↔ ¬ p)

theorem decides_of_returns
    {x : Exec Bool}
    {p q : Prop}
    (hx : ∃ r, x = .ok r)
    (htrue : x = .ok true ↔ q) :
    Decides x p ↔ (q ↔ p) := by
  obtain ⟨r, rfl⟩ := hx
  cases r <;> simp_all [Decides]

section Conditions

variable [StdHash] [Double D]

/-- The element has the same value as the node. -/
def HasValue (a : Node D) (c : NodePtr D) : Prop :=
  ∃ b, c = some b ∧ a.SameValue b

/-- The element has the same value and the same order as the node. -/
def HasValueInOrder (a : Node D) (c : NodePtr D) : Prop :=
  ∃ b, c = some b ∧ a.SameValue b ∧ a.SameOrder b

/-- The comparisons of the two nodes depend on their values only. -/
structure ComparedByValue (a b : Node D) : Prop where
  eq : Decides (a.eq b) (a.SameValue b)
  equalCondition :
    Decides (AgencyNode.equalCondition (some a) (some b)) (a.SameValue b)
  notEqualCondition :
    Decides (AgencyNode.notEqualCondition (some a) (some b)) (¬ a.SameValue b)

/-- The searches for the node in the array depend on the values only. -/
structure SearchedByValue (a : Node D) (value : NodeArray D) : Prop where
  contains :
    Decides (NodeArray.contains value (some a)) (∃ c ∈ value, a.HasValue c)
  erase : ∀ result,
    NodeArray.erase (some a) value = .ok result ↔
      ErasesFirst a.HasValue value result

theorem comparedByValue_iff
    {a b : Node D}
    (ha : a.Complete)
    (hakeys : a.DistinctKeys)
    (hb : b.Complete)
    (hbkeys : b.DistinctKeys) :
    ComparedByValue a b ↔ (a.SameValue b → a.SameOrder b) := by
  obtain ⟨r, hr⟩ := Complete.eq a b ha hb
  have heq := eq_eq_true_iff ha hakeys hb hbkeys
  have hdecides : Decides (a.eq b) (a.SameValue b) ↔
      (a.SameValue b → a.SameOrder b) := by
    rw [decides_of_returns ⟨r, hr⟩ heq]
    tauto
  have hequal : AgencyNode.equalCondition (some a) (some b) = a.eq b := by
    change (a.eq b >>= fun v => pure v) = a.eq b
    exact bind_pure _
  have hnotEqual : AgencyNode.notEqualCondition (some a) (some b) =
      (a.eq b >>= fun v => .ok (!v)) := by
    rfl
  rw [← hdecides]
  constructor
  · exact fun h => h.eq
  · intro h
    refine ⟨h, hequal ▸ h, ?_⟩
    rw [hnotEqual]
    rw [hr] at h ⊢
    unfold Decides at h ⊢
    cases r <;> simp_all

/-- `erase` drops the first element that is found equal. -/
theorem erases_iff
    {a : Node D}
    {value result : NodeArray D}
    (hcompare : ∀ c ∈ value, ∃ r, ptrEq (some a) c = .ok r)
    (hmatch : ∀ c ∈ value,
      ptrEq (some a) c = .ok true ↔ a.HasValueInOrder c) :
    NodeArray.erase (some a) value = .ok result ↔
      ErasesFirst a.HasValueInOrder value result := by
  have hsound : ∀ {result}, NodeArray.erase (some a) value = .ok result →
      ErasesFirst a.HasValueInOrder value result := by
    intro result h
    have hdiffers : ∀ c ∈ value, ptrEq (some a) c = .ok false → ¬ a.HasValueInOrder c := by
      intro c hc hfalse hvalue
      rw [(hmatch c hc).mpr hvalue] at hfalse
      cases hfalse
    rcases NodeArray.erase_eq_ok_iff.mp h with
      ⟨front, element, back, rfl, hfront, hequal, rfl⟩ | ⟨hall, rfl⟩
    · have helement := (hmatch element (by simp)).mp hequal
      exact .append (fun c hc => hdiffers c (List.mem_append_left _ hc) (hfront c hc))
        (.found back helement)
    · have hkept := ErasesFirst.append (fun c hc => hdiffers c hc (hall c hc)) .nil
      rwa [List.append_nil] at hkept
  constructor
  · exact hsound
  · intro h
    obtain ⟨r, hr, _⟩ := NodeArray.erase_ok hcompare
    rw [hr, (hsound hr).unique h]

/-- `contains` looks for an element that is found equal. -/
theorem contains_decides
    {a : Node D}
    {value : NodeArray D}
    (hcompare : ∀ c ∈ value, ∃ r, ptrEq (some a) c = .ok r)
    (hmatch : ∀ c ∈ value,
      ptrEq (some a) c = .ok true ↔ a.HasValueInOrder c) :
    Decides (NodeArray.contains value (some a))
      (∃ c ∈ value, a.HasValueInOrder c) := by
  change Decides (NodeArray.anyEqual (some a) value) _
  induction value with
  | nil =>
      simp [NodeArray.anyEqual, Decides]
  | cons c value ih =>
      obtain ⟨hmatchc, hmatch⟩ := List.forall_mem_cons.mp hmatch
      obtain ⟨⟨r, hr⟩, hcompare⟩ := List.forall_mem_cons.mp hcompare
      rw [hr] at hmatchc
      rw [NodeArray.anyEqual, hr]
      cases r with
      | true =>
          have hc := hmatchc.mp rfl
          simp [Decides, hc]
      | false =>
          have hc : ¬ a.HasValueInOrder c := by
            intro hc
            cases hmatchc.mpr hc
          simpa [Decides, hc] using ih hcompare hmatch

theorem searchedByValue_iff
    {a : Node D}
    {value : NodeArray D}
    (ha : a.Complete)
    (hakeys : a.DistinctKeys)
    (hvalue : (Node.array value).Complete)
    (hvaluekeys : (Node.array value).DistinctKeys) :
    SearchedByValue a value ↔ FirstHas a.HasValue a.HasValueInOrder value := by
  have hcompare : ∀ c ∈ value, ∃ r, ptrEq (some a) c = .ok r :=
    fun c hc => CompletePtr.eq (some a) c ha (complete_array_iff.mp hvalue c hc)
  have hmatch : ∀ c ∈ value,
      ptrEq (some a) c = .ok true ↔ a.HasValueInOrder c := by
    intro c hc
    obtain ⟨b, rfl, hb⟩ := (complete_array_iff.mp hvalue c hc).exists_node
    have hbkeys := distinctKeys_array_iff.mp hvaluekeys _ hc
    have heq := eq_eq_true_iff ha hakeys hb hbkeys
    change a.eq b = .ok true ↔ _
    simpa [HasValueInOrder] using heq
  have hstronger : ∀ c, a.HasValueInOrder c → a.HasValue c := by
    intro c h
    obtain ⟨b, hc, hvalue, _⟩ := h
    exact ⟨b, hc, hvalue⟩
  obtain ⟨result, herased⟩ := exists_erasesFirst a.HasValueInOrder value
  have hresult := (erases_iff hcompare hmatch).mpr herased
  have hfirst := erasesFirst_iff_firstHas hstronger herased
  constructor
  · intro h
    exact hfirst.mp ((h.erase result).mp hresult)
  · intro h
    refine ⟨?_, ?_⟩
    · have hiff : (∃ c ∈ value, a.HasValue c) ↔
          ∃ c ∈ value, a.HasValueInOrder c := by
        refine ⟨exists_of_firstHas h, ?_⟩
        intro hc
        obtain ⟨c, hc, hcvalue⟩ := hc
        exact ⟨c, hc, hstronger c hcvalue⟩
      rw [hiff]
      exact contains_decides hcompare hmatch
    · intro result'
      constructor
      · intro hresult'
        rw [hresult] at hresult'
        cases hresult'
        exact hfirst.mpr h
      · intro herased'
        rw [hresult, herased'.unique (hfirst.mpr h)]

/--
**Equality depends on the values only** as far as the trees that are compared
list the keys with the same hash in the same order wherever they have the same
value.
-/
theorem equality_extensional_iff :
    (∀ a b : Node D, a.Complete → a.DistinctKeys → b.Complete → b.DistinctKeys →
      (ComparedByValue a b ↔ (a.SameValue b → a.SameOrder b))) ∧
    ∀ (a : Node D) (value : NodeArray D), a.Complete → a.DistinctKeys →
      (Node.array value).Complete → (Node.array value).DistinctKeys →
        (SearchedByValue a value ↔
          FirstHas a.HasValue a.HasValueInOrder value) := by
  refine ⟨?_, ?_⟩
  · intro a b ha hakeys hb hbkeys
    exact comparedByValue_iff ha hakeys hb hbkeys
  · intro a value ha hakeys hvalue hvaluekeys
    exact searchedByValue_iff ha hakeys hvalue hvaluekeys

end Conditions

/-! ## Keys with the same hash -/

/-- An object into which the members have been inserted one after the other. -/
def pairObject (first second : String) : Node D :=
  .object (AssocMap.set (AssocMap.set [] first (some .null)) second (some .null))

theorem pairObject_eq
    {x y : String}
    (hne : x ≠ y) :
    (pairObject x y : Node D) =
      .object [(y, some .null), (x, some .null)] := by
  simp [pairObject, AssocMap.set, AssocMap.erase, hne]

theorem complete_pairObject
    {x y : String}
    (hne : x ≠ y) :
    (pairObject x y : Node D).Complete := by
  rw [pairObject_eq hne]
  exact ⟨trivial, trivial, trivial⟩

theorem distinctKeys_pairObject
    (x y : String) :
    (pairObject x y : Node D).DistinctKeys := by
  have hnull : DistinctPtr (some (.null : Node D)) := trivial
  exact (distinctKeys_empty.set_member x hnull).set_member y hnull

/-- Two objects with two members, and an array that holds both objects. -/
theorem equality_extensional_iff_pairObject :
    letI := constantHash
    let a : Node Int := pairObject "x" "y"
    let b : Node Int := pairObject "y" "x"
    (ComparedByValue a b ↔ (a.SameValue b → a.SameOrder b)) ∧
    (SearchedByValue a [some b, some a] ↔
      FirstHas a.HasValue a.HasValueInOrder [some b, some a]) := by
  let := constantHash
  intro a b
  have hne : "x" ≠ "y" := by simp
  have ha : a.Complete := complete_pairObject hne
  have hb : b.Complete := complete_pairObject hne.symm
  have hakeys : a.DistinctKeys := distinctKeys_pairObject _ _
  have hbkeys : b.DistinctKeys := distinctKeys_pairObject _ _
  obtain ⟨hcompare, hsearch⟩ := equality_extensional_iff (D := Int)
  refine ⟨hcompare a b ha hakeys hb hbkeys, ?_⟩
  exact hsearch a _ ha hakeys ⟨hb, ha, trivial⟩ ⟨hbkeys, hakeys, trivial⟩

/-- Two keys with the same hash are listed in the order of insertion. -/
theorem pairObject_ne
    [StdHash]
    [Double D]
    {x y : String}
    (hne : x ≠ y)
    (hhash : StdHash.hash x = StdHash.hash y) :
    (pairObject x y : Node D).SameValue (pairObject y x) ∧
      (pairObject x y : Node D).eq (pairObject y x) = .ok false := by
  have hvalue : (pairObject x y : Node D).SameValue (pairObject y x) := by
    rw [pairObject_eq hne, pairObject_eq hne.symm]
    refine .object ?_ ?_
    · intro key
      simp [or_comm]
    · intro key n m hn hm
      have hn := AssocMap.mem_of_find hn
      have hm := AssocMap.mem_of_find hm
      simp only [List.mem_cons, Prod.mk.injEq, Option.some.injEq,
        List.not_mem_nil, or_false] at hn hm
      have hnnull : n = .null := by
        rcases hn with hn | hn
        · exact hn.2
        · exact hn.2
      have hmnull : m = .null := by
        rcases hm with hm | hm
        · exact hm.2
        · exact hm.2
      rw [hnnull, hmnull]
      exact .null
  have horder : ¬ (pairObject x y : Node D).SameOrder (pairObject y x) := by
    rw [pairObject_eq hne, pairObject_eq hne.symm, sameOrder_object_iff]
    intro h
    have hbucket := h.1 (StdHash.hash x)
    simp [ImmerMap.bucketKeys, ImmerMap.bucket, hhash] at hbucket
    exact hne hbucket.2
  refine ⟨hvalue, ?_⟩
  obtain ⟨r, hr⟩ := Complete.eq _ _
    (complete_pairObject (D := D) hne) (complete_pairObject hne.symm)
  have heq := eq_eq_true_iff
    (complete_pairObject (D := D) hne) (distinctKeys_pairObject x y)
    (complete_pairObject hne.symm) (distinctKeys_pairObject y x)
  cases r with
  | true =>
      exact absurd (heq.mp hr).2 horder
  | false =>
      exact hr

/-- Whatever the hash function is, some keys share their hash. -/
theorem exists_collision
    [StdHash] :
    ∃ x y : String, x ≠ y ∧ StdHash.hash x = StdHash.hash y := by
  have hfinite : Finite UInt64 :=
    Finite.of_injective UInt64.toFin (fun a b h => UInt64.toFin_inj.mp h)
  obtain ⟨i, j, hne, heq⟩ :=
    Finite.exists_ne_map_eq_of_infinite
      (fun i : Nat => StdHash.hash (stdToString i))
  exact ⟨_, _, fun h => hne (stdToString_injective h), heq⟩

/-- **Equality depends on the history**, whatever the hash function is. -/
theorem exists_order_dependent
    [StdHash]
    [Double D] :
    ∃ x y : String,
      (pairObject x y : Node D).SameValue (pairObject y x) ∧
        (pairObject x y : Node D).eq (pairObject y x) = .ok false := by
  obtain ⟨x, y, hne, hhash⟩ := exists_collision
  exact ⟨x, y, pairObject_ne hne hhash⟩

/-- Two objects that differ in the order of insertion only. -/
theorem equality_order_dependent :
    letI := constantHash
    ¬ ∀ a b : Node Int, a.Complete → a.DistinctKeys → b.Complete →
      b.DistinctKeys → (a.eq b = .ok true ↔ a.SameValue b) := by
  let := constantHash
  intro h
  have hne : "x" ≠ "y" := by decide
  obtain ⟨hvalue, heq⟩ := pairObject_ne (D := Int) hne rfl
  have htrue := (h _ _ (complete_pairObject hne) (distinctKeys_pairObject _ _)
    (complete_pairObject hne.symm) (distinctKeys_pairObject _ _)).mpr hvalue
  rw [heq] at htrue
  cases htrue

end Node

end AgencyNode
